import Disassembler.Proofs.Fields

/-!
# The instruction forms of RISC-V

The instructions as a manual lists them: a mnemonic, the fields that have a fixed value, and the
operands, each with the fields that it shows. An alias is a form of its own, with more fixed fields
and fewer operands. What is decoded is always one of the forms, with the operands that its fields say.
-/

namespace Disassembler.RiscV

/-! ## Forms -/

/-- An operand of a form. -/
inductive Slot where
  | rd
  | rs1
  | rs2
  /-- The destination as a floating-point register. -/
  | floatRd
  /-- The second source as a floating-point register. -/
  | floatRs2
  /-- A signed number of twelve bits. -/
  | imm
  /-- A shift amount below 64. -/
  | shift6
  /-- A shift amount below 32. -/
  | shift5
  /-- The upper twenty bits. -/
  | upper
  /-- A control and status register. -/
  | csr
  /-- A number in the place of the first source. -/
  | uimm
  /-- The place that a load accesses. -/
  | loaded (size : UInt8)
  /-- The place that a store accesses. -/
  | stored (size : UInt8)
  /-- The place that an atomic operation accesses. -/
  | atomic (size : UInt8)
  | branchTarget
  | jumpTarget
  deriving DecidableEq

namespace Slot

/-- The operand that a word shows. -/
def operand (w : UInt32) (a : UInt64) : Slot → Operand
  | rd => xreg (RiscV.rd w)
  | rs1 => xreg (RiscV.rs1 w)
  | rs2 => xreg (RiscV.rs2 w)
  | floatRd => freg (RiscV.rd w)
  | floatRs2 => freg (RiscV.rs2 w)
  | imm => .signedImm (immI w) 12
  | shift6 => .decimalImm (bits w 25 20) 6
  | shift5 => .decimalImm (RiscV.rs2 w) 5
  | upper => .hexImm (bits w 31 12) 20
  | csr => csrOperand (bits w 31 20)
  | uimm => .decimalImm (RiscV.rs1 w) 5
  | loaded size => based (RiscV.rs1 w) (immI w) size
  | stored size => based (RiscV.rs1 w) (immS w) size
  | atomic size => unbased (RiscV.rs1 w) size
  | branchTarget => .relative (moveBy a (immB w))
  | jumpTarget => .relative (moveBy a (immJ w))

/-- The fields that the operand shows. -/
def fields : Slot → List Field
  | rd | floatRd => [⟨11, 7⟩]
  | rs1 | uimm | atomic _ => [⟨19, 15⟩]
  | rs2 | floatRs2 | shift5 => [⟨24, 20⟩]
  | imm | csr => [⟨31, 20⟩]
  | shift6 => [⟨25, 20⟩]
  | upper => [⟨31, 12⟩]
  | loaded _ => [⟨19, 15⟩, ⟨31, 20⟩]
  | stored _ => [⟨19, 15⟩, ⟨31, 25⟩, ⟨11, 7⟩]
  | branchTarget => [⟨31, 31⟩, ⟨7, 7⟩, ⟨30, 25⟩, ⟨11, 8⟩]
  | jumpTarget => [⟨31, 31⟩, ⟨19, 12⟩, ⟨20, 20⟩, ⟨30, 21⟩]

end Slot

/-- A form of an instruction. -/
structure Form where
  mnemonic : String
  /-- The fields with a fixed value. -/
  fixed : List (Field × Nat)
  operands : List Slot

namespace Form

/-- The word has the fixed fields of the form. -/
def Matches (f : Form) (w : UInt32) : Prop := ∀ x ∈ f.fixed, bits w x.1.hi x.1.lo = x.2

/-- The operation is what the form makes of the word. -/
structure Shows (f : Form) (w : UInt32) (a : UInt64) (op : Operation) : Prop where
  mnemonic : op.mnemonic = f.mnemonic
  operands : op.operands = f.operands.map (Slot.operand w a)

/-- All fields, fixed or shown. -/
def fields (f : Form) : List Field := f.fixed.map Prod.fst ++ f.operands.flatMap Slot.fields

/-- Is each bit of a word in a field? -/
def covers (f : Form) : Bool := (List.range 32).all fun i => f.fields.any (·.holds i)

end Form

/-! ## The list -/

/-- A form of an opcode. -/
def form (mnemonic : String) (opcode : Nat) (fixed : List (Field × Nat)) (operands : List Slot) :
    Form := { mnemonic, fixed := (⟨6, 0⟩, opcode) :: fixed, operands }

/-- The destination has a fixed value. -/
def rdIs (v : Nat) : Field × Nat := (⟨11, 7⟩, v)

/-- The minor opcode. -/
def funct3Is (v : Nat) : Field × Nat := (⟨14, 12⟩, v)

/-- The first source has a fixed value. -/
def rs1Is (v : Nat) : Field × Nat := (⟨19, 15⟩, v)

/-- The second source has a fixed value. -/
def rs2Is (v : Nat) : Field × Nat := (⟨24, 20⟩, v)

/-- The upper opcode bits of a register operation. -/
def funct7Is (v : Nat) : Field × Nat := (⟨31, 25⟩, v)

/-- The immediate has a fixed value, as a number of twelve bits. -/
def immIs (v : Nat) : Field × Nat := (⟨31, 20⟩, v)

/-- The upper opcode bits of a shift by six bits. -/
def funct6Is (v : Nat) : Field × Nat := (⟨31, 26⟩, v)

def upperForms : List Form := [form "lui" 0x37 [] [.rd, .upper], form "auipc" 0x17 [] [.rd, .upper]]

def jalForms : List Form := [
  form "j" 0x6F [rdIs 0] [.jumpTarget],
  form "jal" 0x6F [rdIs 1] [.jumpTarget],
  form "jal" 0x6F [] [.rd, .jumpTarget]]

def jalrForms : List Form := [
  form "ret" 0x67 [funct3Is 0, rdIs 0, rs1Is 1, immIs 0] [],
  form "jr" 0x67 [funct3Is 0, rdIs 0, immIs 0] [.rs1],
  form "jr" 0x67 [funct3Is 0, rdIs 0] [.loaded 0],
  form "jalr" 0x67 [funct3Is 0, rdIs 1, immIs 0] [.rs1],
  form "jalr" 0x67 [funct3Is 0] [.rd, .loaded 0]]

def branchForms : List Form := [
  form "beqz" 0x63 [funct3Is 0, rs2Is 0] [.rs1, .branchTarget],
  form "beq" 0x63 [funct3Is 0] [.rs1, .rs2, .branchTarget],
  form "bnez" 0x63 [funct3Is 1, rs2Is 0] [.rs1, .branchTarget],
  form "bne" 0x63 [funct3Is 1] [.rs1, .rs2, .branchTarget],
  form "bltz" 0x63 [funct3Is 4, rs2Is 0] [.rs1, .branchTarget],
  form "bgtz" 0x63 [funct3Is 4, rs1Is 0] [.rs2, .branchTarget],
  form "blt" 0x63 [funct3Is 4] [.rs1, .rs2, .branchTarget],
  form "bgez" 0x63 [funct3Is 5, rs2Is 0] [.rs1, .branchTarget],
  form "blez" 0x63 [funct3Is 5, rs1Is 0] [.rs2, .branchTarget],
  form "bge" 0x63 [funct3Is 5] [.rs1, .rs2, .branchTarget],
  form "bltu" 0x63 [funct3Is 6] [.rs1, .rs2, .branchTarget],
  form "bgeu" 0x63 [funct3Is 7] [.rs1, .rs2, .branchTarget]]

def loadForms : List Form :=
  loads.toList.zipIdx.map fun ((m, size), i) => form m 0x03 [funct3Is i] [.rd, .loaded size]

def storeForms : List Form :=
  stores.toList.zipIdx.map fun ((m, size), i) => form m 0x23 [funct3Is i] [.rs2, .stored size]

def floatForms : List Form := [
  form "flw" 0x07 [funct3Is 2] [.floatRd, .loaded 4],
  form "fld" 0x07 [funct3Is 3] [.floatRd, .loaded 8],
  form "fsw" 0x27 [funct3Is 2] [.floatRs2, .stored 4],
  form "fsd" 0x27 [funct3Is 3] [.floatRs2, .stored 8]]

def immediateForms : List Form := [
  form "nop" 0x13 [funct3Is 0, rdIs 0, rs1Is 0, immIs 0] [],
  form "li" 0x13 [funct3Is 0, rs1Is 0] [.rd, .imm],
  form "mv" 0x13 [funct3Is 0, immIs 0] [.rd, .rs1],
  form "addi" 0x13 [funct3Is 0] [.rd, .rs1, .imm],
  form "slli" 0x13 [funct3Is 1, funct6Is 0] [.rd, .rs1, .shift6],
  form "slti" 0x13 [funct3Is 2] [.rd, .rs1, .imm],
  form "seqz" 0x13 [funct3Is 3, immIs 1] [.rd, .rs1],
  form "sltiu" 0x13 [funct3Is 3] [.rd, .rs1, .imm],
  form "not" 0x13 [funct3Is 4, immIs 0xFFF] [.rd, .rs1],
  form "xori" 0x13 [funct3Is 4] [.rd, .rs1, .imm],
  form "srli" 0x13 [funct3Is 5, funct6Is 0] [.rd, .rs1, .shift6],
  form "srai" 0x13 [funct3Is 5, funct6Is 0x10] [.rd, .rs1, .shift6],
  form "ori" 0x13 [funct3Is 6] [.rd, .rs1, .imm],
  form "andi" 0x13 [funct3Is 7] [.rd, .rs1, .imm],
  form "sext.w" 0x1B [funct3Is 0, immIs 0] [.rd, .rs1],
  form "addiw" 0x1B [funct3Is 0] [.rd, .rs1, .imm],
  form "slliw" 0x1B [funct3Is 1, funct7Is 0] [.rd, .rs1, .shift5],
  form "srliw" 0x1B [funct3Is 5, funct7Is 0] [.rd, .rs1, .shift5],
  form "sraiw" 0x1B [funct3Is 5, funct7Is 0x20] [.rd, .rs1, .shift5]]

/-- The register operations of an array, by minor opcode. -/
def arrayForms (names : Array String) (funct7 : Nat) : List Form :=
  names.toList.zipIdx.map fun (m, i) => form m 0x33 [funct3Is i, funct7Is funct7] [.rd, .rs1, .rs2]

def registerForms : List Form := [
  form "snez" 0x33 [funct3Is 3, funct7Is 0, rs1Is 0] [.rd, .rs2],
  form "neg" 0x33 [funct3Is 0, funct7Is 0x20, rs1Is 0] [.rd, .rs2],
  form "sub" 0x33 [funct3Is 0, funct7Is 0x20] [.rd, .rs1, .rs2],
  form "sra" 0x33 [funct3Is 5, funct7Is 0x20] [.rd, .rs1, .rs2],
  form "addw" 0x3B [funct3Is 0, funct7Is 0] [.rd, .rs1, .rs2],
  form "sllw" 0x3B [funct3Is 1, funct7Is 0] [.rd, .rs1, .rs2],
  form "srlw" 0x3B [funct3Is 5, funct7Is 0] [.rd, .rs1, .rs2],
  form "negw" 0x3B [funct3Is 0, funct7Is 0x20, rs1Is 0] [.rd, .rs2],
  form "subw" 0x3B [funct3Is 0, funct7Is 0x20] [.rd, .rs1, .rs2],
  form "sraw" 0x3B [funct3Is 5, funct7Is 0x20] [.rd, .rs1, .rs2],
  form "mulw" 0x3B [funct3Is 0, funct7Is 1] [.rd, .rs1, .rs2],
  form "divw" 0x3B [funct3Is 4, funct7Is 1] [.rd, .rs1, .rs2],
  form "divuw" 0x3B [funct3Is 5, funct7Is 1] [.rd, .rs1, .rs2],
  form "remw" 0x3B [funct3Is 6, funct7Is 1] [.rd, .rs1, .rs2],
  form "remuw" 0x3B [funct3Is 7, funct7Is 1] [.rd, .rs1, .rs2]]

/-- An atomic operation of a size, which the minor opcode says, with an ordering. -/
def atomicForm (stem : String) (funct5 : Nat) (ending : String) (size : UInt8) (minor : Nat)
    (acquire release : Bool) : Form :=
  let mnemonic := stem ++ ending ++ ordering acquire release
  let fixed : List (Field × Nat) := [funct3Is minor, (⟨31, 27⟩, funct5),
    (⟨26, 26⟩, acquire.toNat), (⟨25, 25⟩, release.toNat)]
  if funct5 = 0x02 then form mnemonic 0x2F (rs2Is 0 :: fixed) [.rd, .atomic size]
  else form mnemonic 0x2F fixed [.rd, .rs2, .atomic size]

def atomicForms : List Form :=
  atomicOps.flatMap fun (funct5, stem) => [false, true].flatMap fun acquire =>
    [false, true].flatMap fun release =>
      [atomicForm stem funct5 ".w" 4 2 acquire release,
        atomicForm stem funct5 ".d" 8 3 acquire release]

def privilegedForms : List Form := [
  form "sfence.vma" 0x73 [funct3Is 0, funct7Is 0x09, rdIs 0] [.rs1, .rs2],
  form "ecall" 0x73 [funct3Is 0, rdIs 0, rs1Is 0, immIs 0x000] [],
  form "ebreak" 0x73 [funct3Is 0, rdIs 0, rs1Is 0, immIs 0x001] [],
  form "sret" 0x73 [funct3Is 0, rdIs 0, rs1Is 0, immIs 0x102] [],
  form "mret" 0x73 [funct3Is 0, rdIs 0, rs1Is 0, immIs 0x302] [],
  form "wfi" 0x73 [funct3Is 0, rdIs 0, rs1Is 0, immIs 0x105] []]

/-- The forms of an access to a control and status register, by the low bits of the minor opcode. -/
def accessForms (stems : String × String) (low : Nat) : List Form := [
  form stems.1 0x73 [funct3Is low, rdIs 0] [.csr, .rs1],
  form stems.2 0x73 [funct3Is low] [.rd, .csr, .rs1],
  form (stems.1 ++ "i") 0x73 [funct3Is (low + 4), rdIs 0] [.csr, .uimm],
  form (stems.2 ++ "i") 0x73 [funct3Is (low + 4)] [.rd, .csr, .uimm]]

def csrForms : List Form :=
  form "csrr" 0x73 [funct3Is 2, rs1Is 0] [.rd, .csr]
    :: csrStems.toList.zipIdx.flatMap fun (stems, i) => accessForms stems (i + 1)

/-- All forms but those of fences. -/
def forms : List Form :=
  upperForms ++ jalForms ++ jalrForms ++ branchForms ++ loadForms ++ storeForms ++ floatForms
    ++ immediateForms ++ arrayForms baseOps 0 ++ arrayForms mulOps 1 ++ registerForms ++ atomicForms
    ++ privilegedForms ++ csrForms

/-! ## What is decoded is one of the forms -/

/-- The word has one of the forms, and the operation is what this makes of it. -/
def Listed (fs : List Form) (w : UInt32) (a : UInt64) (op : Operation) : Prop :=
  ∃ f ∈ fs, f.Matches w ∧ f.Shows w a op

/-- If something is decoded, then by one of the forms. -/
def AllListed (fs : List Form) (w : UInt32) (a : UInt64) (x : Option Operation) : Prop :=
  ∀ op ∈ x, Listed fs w a op

section

variable {fs : List Form} {w : UInt32} {a : UInt64} {p : Prop} [Decidable p]

@[simp] theorem listed_cons {f : Form} {op : Operation} :
    Listed (f :: fs) w a op ↔ (f.Matches w ∧ f.Shows w a op) ∨ Listed fs w a op := by
  simp [Listed]

@[simp] theorem not_listed_nil {op : Operation} : ¬ Listed [] w a op := by simp [Listed]

@[simp] theorem listed_ite {op op' : Operation} :
    Listed fs w a (if p then op else op') ↔ (p → Listed fs w a op) ∧ (¬p → Listed fs w a op') := by
  split <;> simp [*]

@[simp] theorem allListed_none : AllListed fs w a none := fun _ h => absurd h (by simp)

@[simp] theorem allListed_some {op : Operation} : AllListed fs w a (some op) ↔ Listed fs w a op := by
  simp [AllListed]

@[simp] theorem allListed_ite {x y : Option Operation} :
    AllListed fs w a (if p then x else y) ↔ (p → AllListed fs w a x) ∧ (¬p → AllListed fs w a y) := by
  split <;> simp [*]

theorem AllListed.mono {fs' : List Form} {x : Option Operation} (h : AllListed fs w a x)
    (hfs : ∀ f ∈ fs, f ∈ fs') : AllListed fs' w a x := fun op hop => by
  obtain ⟨f, hf, h⟩ := h op hop
  exact ⟨f, hfs f hf, h⟩

theorem AllListed.left {fs' : List Form} {x : Option Operation} (h : AllListed fs w a x) :
    AllListed (fs ++ fs') w a x := h.mono fun _ => List.mem_append_left fs'

theorem AllListed.right {fs' : List Form} {x : Option Operation} (h : AllListed fs w a x) :
    AllListed (fs' ++ fs) w a x := h.mono fun _ => List.mem_append_right fs'

@[simp] theorem form_matches {m : String} {opcode : Nat} {fixed : List (Field × Nat)}
    {slots : List Slot} :
    (form m opcode fixed slots).Matches w
      ↔ bits w 6 0 = opcode ∧ ∀ x ∈ fixed, bits w x.1.hi x.1.lo = x.2 := by
  simp [form, Form.Matches]

@[simp] theorem form_shows {m : String} {opcode : Nat} {fixed : List (Field × Nat)}
    {slots : List Slot} {op : Operation} :
    (form m opcode fixed slots).Shows w a op
      ↔ op.mnemonic = m ∧ op.operands = slots.map (Slot.operand w a) :=
  ⟨fun h => ⟨h.mnemonic, h.operands⟩, fun h => ⟨h.1, h.2⟩⟩

end

variable {w : UInt32} {a : UInt64}

theorem immI_eq_iff {v : Nat} (hv : v < 2 ^ 12) : immI w = signExtend 12 v ↔ bits w 31 20 = v :=
  ⟨signExtend_inj (bits_lt w 31 20) hv, fun h => by rw [immI, h]⟩

theorem immI_eq_zero_iff : immI w = 0 ↔ bits w 31 20 = 0 := by
  rw [← immI_eq_iff (by decide), show signExtend 12 0 = 0 by decide]

theorem immI_eq_one_iff : immI w = 1 ↔ bits w 31 20 = 1 := by
  rw [← immI_eq_iff (by decide), show signExtend 12 1 = 1 by decide]

theorem immI_eq_neg_one_iff : immI w = -1 ↔ bits w 31 20 = 0xFFF := by
  rw [← immI_eq_iff (by decide), show signExtend 12 0xFFF = -1 by decide]

theorem listed_upper (m : String) {opcode : Nat} (hopcode : bits w 6 0 = opcode) :
    Listed [form m opcode [] [.rd, .upper]] w a (upper m w) := by
  simp [upper, Slot.operand, hopcode]

theorem listed_jal (hopcode : bits w 6 0 = 0x6F) : Listed jalForms w a (jal w a) := by
  simp only [jal, listed_ite]
  simp_all [jalForms, rdIs, rd, Slot.operand, Operation.withTarget]

theorem allListed_jalr (hopcode : bits w 6 0 = 0x67) : AllListed jalrForms w a (jalr w) := by
  simp only [jalr, allListed_ite, allListed_some, listed_ite, immI_eq_zero_iff]
  simp_all [jalrForms, funct3Is, rdIs, rs1Is, immIs, funct3, rd, rs1, Slot.operand]

theorem allListed_branch (hopcode : bits w 6 0 = 0x63) : AllListed branchForms w a (branch w a) := by
  unfold branch
  split <;> simp only [allListed_some, allListed_none, listed_ite]
  all_goals simp_all [branchForms, funct3Is, rs2Is, rs1Is, funct3, rs2, rs1, Slot.operand,
    Operation.withTarget]

theorem mem_zipIdx_toList {α : Type} {xs : Array α} {i : Nat} {x : α} (h : xs[i]? = some x) :
    (x, i) ∈ xs.toList.zipIdx := by
  simpa [List.mem_zipIdx_iff_getElem?] using h

theorem allListed_load (hopcode : bits w 6 0 = 0x03) : AllListed loadForms w a (load w) := by
  intro op hop
  obtain ⟨⟨m, size⟩, hm, rfl⟩ := Option.map_eq_some_iff.mp hop
  refine ⟨_, List.mem_map_of_mem (mem_zipIdx_toList hm), ?_⟩
  simp [hopcode, funct3Is, funct3, Slot.operand]

theorem allListed_store (hopcode : bits w 6 0 = 0x23) : AllListed storeForms w a (store w) := by
  intro op hop
  obtain ⟨⟨m, size⟩, hm, rfl⟩ := Option.map_eq_some_iff.mp hop
  refine ⟨_, List.mem_map_of_mem (mem_zipIdx_toList hm), ?_⟩
  simp [hopcode, funct3Is, funct3, Slot.operand]

theorem allListed_array (names : Array String) {opcode7 : Nat} (hopcode : bits w 6 0 = 0x33)
    (hfunct7 : funct7 w = opcode7) :
    AllListed (arrayForms names opcode7) w a (names[funct3 w]?.map (binary · w)) := by
  intro op hop
  obtain ⟨m, hm, rfl⟩ := Option.map_eq_some_iff.mp hop
  refine ⟨_, List.mem_map_of_mem (mem_zipIdx_toList hm), ?_⟩
  simp [hopcode, ← hfunct7, funct3Is, funct7Is, funct3, funct7, binary, Slot.operand]

theorem allListed_floatLoad (hopcode : bits w 6 0 = 0x07) :
    AllListed floatForms w a (floatLoad w) := by
  unfold floatLoad
  split <;> simp_all [floatForms, funct3Is, funct3, Slot.operand]

theorem allListed_floatStore (hopcode : bits w 6 0 = 0x27) :
    AllListed floatForms w a (floatStore w) := by
  unfold floatStore
  split <;> simp_all [floatForms, funct3Is, funct3, Slot.operand]

theorem allListed_opImm (hopcode : bits w 6 0 = 0x13) : AllListed immediateForms w a (opImm w) := by
  unfold opImm
  dsimp only
  split <;> simp only [allListed_some, allListed_none, allListed_ite, listed_ite,
    immI_eq_zero_iff, immI_eq_one_iff, immI_eq_neg_one_iff]
  all_goals simp_all [immediateForms, funct3Is, rdIs, rs1Is, immIs, funct6Is, funct3, rd, rs1,
    Slot.operand, unary, withImm, withShift]

theorem allListed_opImm32 (hopcode : bits w 6 0 = 0x1B) :
    AllListed immediateForms w a (opImm32 w) := by
  unfold opImm32
  split <;> simp only [allListed_some, allListed_none, allListed_ite, listed_ite, immI_eq_zero_iff]
  all_goals simp_all [immediateForms, funct3Is, immIs, funct7Is, funct3, funct7, Slot.operand,
    unary, withImm, withShift]

theorem allListed_op (hopcode : bits w 6 0 = 0x33) :
    AllListed (arrayForms baseOps 0 ++ (arrayForms mulOps 1 ++ registerForms)) w a (op w) := by
  unfold op
  split
  · rw [allListed_ite]
    refine ⟨fun h => .right (.right ?_), fun _ => .left (allListed_array baseOps hopcode ‹_›)⟩
    simp_all [registerForms, funct3Is, funct7Is, rs1Is, funct3, funct7, rs1, Slot.operand,
      unarySecond]
  · refine .right (.right ?_)
    simp only [allListed_some, allListed_none, allListed_ite]
    simp_all [registerForms, funct3Is, funct7Is, rs1Is, funct3, funct7, rs1, Slot.operand,
      unarySecond, binary]
  · exact .right (.left (allListed_array mulOps hopcode ‹_›))
  · exact allListed_none

theorem allListed_op32 (hopcode : bits w 6 0 = 0x3B) : AllListed registerForms w a (op32 w) := by
  unfold op32
  split <;> simp only [allListed_some, allListed_none, listed_ite]
  all_goals simp_all [registerForms, funct3Is, funct7Is, rs1Is, funct3, funct7, rs1, Slot.operand,
    unarySecond, binary]

theorem mem_of_lookup {α β : Type} [BEq α] [LawfulBEq α] {l : List (α × β)} {k : α} {v : β}
    (h : l.lookup k = some v) : (k, v) ∈ l := by
  obtain ⟨l₁, l₂, rfl, -⟩ := List.lookup_eq_some_iff.mp h
  simp

theorem mem_atomicForms {funct5 : Nat} {stem : String} (h : (funct5, stem) ∈ atomicOps)
    {ending : String} {size : UInt8} {minor : Nat}
    (hsize : (ending, size, minor) = (".w", 4, 2) ∨ (ending, size, minor) = (".d", 8, 3))
    (acquire release : Bool) :
    atomicForm stem funct5 ending size minor acquire release ∈ atomicForms := by
  refine List.mem_flatMap.mpr ⟨_, h, List.mem_flatMap.mpr ⟨acquire, by simp, ?_⟩⟩
  refine List.mem_flatMap.mpr ⟨release, by simp, ?_⟩
  rcases hsize with hsize | hsize <;> cases hsize <;> simp

theorem allListed_atomic (hopcode : bits w 6 0 = 0x2F) : AllListed atomicForms w a (atomic w) := by
  -- both sizes go on in the same way
  have hsized : ∀ (ending : String) (size : UInt8),
      (ending, size, funct3 w) = (".w", 4, 2) ∨ (ending, size, funct3 w) = (".d", 8, 3) →
      AllListed atomicForms w a ((atomicOps.lookup (bits w 31 27)).bind fun stem =>
        let mnemonic := stem ++ ending ++ ordering (bit w 26) (bit w 25)
        if bits w 31 27 = 0x02 then
          if rs2 w = 0 then some { mnemonic, operands := [xreg (rd w), unbased (rs1 w) size] }
          else none
        else some { mnemonic, operands := [xreg (rd w), xreg (rs2 w), unbased (rs1 w) size] }) := by
    intro ending size hsize op hop
    obtain ⟨stem, hstem, hop⟩ := Option.bind_eq_some_iff.mp hop
    refine ⟨_, mem_atomicForms (mem_of_lookup hstem) hsize (bit w 26) (bit w 25), ?_⟩
    unfold atomicForm
    dsimp only at hop
    split at hop
    · split at hop
      · obtain rfl := Option.some.inj hop
        simp_all [funct3Is, rs2Is, funct3, rs2, toNat_bit, Slot.operand]
      · exact absurd hop (by simp)
    · obtain rfl := Option.some.inj hop
      simp_all [funct3Is, funct3, toNat_bit, Slot.operand]
  unfold atomic
  dsimp only
  split
  · exact hsized ".w" 4 (.inl (by simp [*]))
  · exact hsized ".d" 8 (.inr (by simp [*]))
  · exact allListed_none

theorem allListed_privileged (hopcode : bits w 6 0 = 0x73) (hminor : funct3 w = 0) :
    AllListed privilegedForms w a (privileged w) := by
  unfold privileged
  split
  · simp_all [privilegedForms, funct3Is, funct7Is, rdIs, funct3, funct7, rd, Slot.operand]
  split
  · exact allListed_none
  split <;> simp_all [privilegedForms, funct3Is, rdIs, rs1Is, immIs, funct3, rd, rs1]

theorem mem_csrForms {i : Nat} {stems : String × String} (h : csrStems[i]? = some stems) {f : Form}
    (hf : f ∈ accessForms stems (i + 1)) : f ∈ csrForms :=
  List.mem_cons_of_mem _ (List.mem_flatMap.mpr ⟨_, mem_zipIdx_toList h, hf⟩)

/-- The minor opcode of an access says which stems it has and whether it takes a number. -/
theorem funct3_cases (hzero : funct3 w ≠ 0) (hfour : funct3 w ≠ 4) :
    (¬ 5 ≤ funct3 w ∧ funct3 w = funct3 w % 4 - 1 + 1)
      ∨ (5 ≤ funct3 w ∧ funct3 w = funct3 w % 4 - 1 + 1 + 4) := by
  have hlt : funct3 w < 8 := bits_lt w 14 12
  omega

theorem allListed_csrAccess (hopcode : bits w 6 0 = 0x73) (hzero : funct3 w ≠ 0)
    (hfour : funct3 w ≠ 4) : AllListed csrForms w a (csrAccess w) := by
  intro op hop
  obtain ⟨⟨short, full⟩, hstems, hop⟩ := Option.bind_eq_some_iff.mp hop
  dsimp only at hop
  split at hop
  · obtain rfl := Option.some.inj hop
    refine ⟨_, List.mem_cons_self, ?_⟩
    simp_all [funct3Is, rs1Is, funct3, rs1, Slot.operand]
  have haccess : Listed (accessForms (short, full) (funct3 w % 4 - 1 + 1)) w a op := by
    have hminor := funct3_cases hzero hfour
    generalize funct3 w % 4 - 1 + 1 = low at hminor
    obtain ⟨himm, hminor⟩ | ⟨himm, hminor⟩ := hminor <;> split at hop <;>
      obtain rfl := Option.some.inj hop
    all_goals simp_all [accessForms, funct3Is, rdIs, funct3, rd, rs1, Slot.operand]
  obtain ⟨f, hf, h⟩ := haccess
  exact ⟨f, mem_csrForms hstems hf, h⟩

theorem allListed_system (hopcode : bits w 6 0 = 0x73) :
    AllListed (privilegedForms ++ csrForms) w a (system w) := by
  unfold system
  split
  · exact .left (allListed_privileged hopcode ‹_›)
  · exact allListed_none
  · exact .right (allListed_csrAccess hopcode ‹_› ‹_›)

/-- **Whatever is decoded, it is one of the forms.** -/
theorem allListed_decode (hmisc : bits w 6 0 ≠ 0x0F) : AllListed forms w a (decode w a) := by
  unfold decode
  split
  · refine (allListed_some.mpr (listed_upper "lui" ‹_›)).mono ?_
    simp [forms, upperForms]
  · refine (allListed_some.mpr (listed_upper "auipc" ‹_›)).mono ?_
    simp [forms, upperForms]
  · exact (allListed_some.mpr (listed_jal ‹_›)).mono (by simp +contextual [forms])
  · exact (allListed_jalr ‹_›).mono (by simp +contextual [forms])
  · exact (allListed_branch ‹_›).mono (by simp +contextual [forms])
  · exact (allListed_load ‹_›).mono (by simp +contextual [forms])
  · exact (allListed_store ‹_›).mono (by simp +contextual [forms])
  · exact (allListed_floatLoad ‹_›).mono (by simp +contextual [forms])
  · exact (allListed_floatStore ‹_›).mono (by simp +contextual [forms])
  · exact (allListed_opImm ‹_›).mono (by simp +contextual [forms])
  · exact (allListed_opImm32 ‹_›).mono (by simp +contextual [forms])
  · exact (allListed_op ‹_›).mono (by simp +contextual [forms, or_imp])
  · exact (allListed_op32 ‹_›).mono (by simp +contextual [forms])
  · exact (allListed_atomic ‹_›).mono (by simp +contextual [forms])
  · exact absurd ‹_› hmisc
  · exact (allListed_system ‹_›).mono (by simp +contextual [forms])
  · exact allListed_none

end Disassembler.RiscV
