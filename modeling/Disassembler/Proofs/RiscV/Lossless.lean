import Disassembler.Proofs.Delimiting
import Disassembler.Proofs.RiscV.Forms
import Mathlib.Data.List.Dedup
import Mathlib.Data.List.Nodup

/-!
# Decoding RISC-V loses nothing

Each form shows every field that it does not fix. So a word can be read off its form and its
operands; and two forms with the same mnemonic are told apart by how many operands they have and
which of these are in memory. Aliases leave operands out, but only such as their own fields fix.
-/

namespace Disassembler

/-- What is to be seen of an operand: the name of a register, the value of a number, the base, the
displacement and the size of a place in memory, or a target. -/
inductive Content where
  | register (name : Option String)
  | number (value : Int)
  | place (base : Option String) (displacement : Int) (size : UInt8)
  | target (address : UInt64)
  deriving DecidableEq

/-- The content of an operand. -/
def Operand.content : Operand → Content
  | register r => .register r.name
  | immediate i => .number i.value
  | memory m => .place m.base m.displacement m.size
  | relative t => .target t

theorem Operand.content_signedImm (v : Int) (width : UInt8) :
    (signedImm v width).content = .number v := rfl

/-- Is it a place in memory? -/
def Content.isPlace : Content → Bool
  | place .. => true
  | register _ | number _ | target _ => false

namespace RiscV

variable {w w' : UInt32} {a : UInt64}

/-! ## Operands show their fields -/

theorem content_based (base : Nat) (d : Int) (size : UInt8) :
    (based base d size).content = .place integerNames[base]? d size := rfl

theorem eq_of_getElem?_eq (names : Array String) (hnames : names.toList.Nodup) {r r' : Nat}
    (hr : r < names.size) (h : names[r]? = names[r']?) : r = r' := by
  rw [← Array.getElem?_toList, ← Array.getElem?_toList] at h
  exact (List.getElem?_inj (by simpa using hr) hnames).mp h

theorem integerNames_inj {r r' : Nat} (hr : r < 32) (h : integerNames[r]? = integerNames[r']?) :
    r = r' := eq_of_getElem?_eq integerNames (by decide +kernel) hr h

theorem floatNames_inj {r r' : Nat} (hr : r < 32) (h : floatNames[r]? = floatNames[r']?) :
    r = r' := eq_of_getElem?_eq floatNames (by decide +kernel) hr h

theorem immI_inj (h : immI w = immI w') : bits w 31 20 = bits w' 31 20 :=
  signExtend_inj (bits_lt w 31 20) (bits_lt w' 31 20) h

theorem immS_inj (h : immS w = immS w') :
    bits w 31 25 = bits w' 31 25 ∧ bits w 11 7 = bits w' 11 7 := by
  have hbounds : ∀ v, bits v 31 25 < 128 ∧ bits v 11 7 < 32 := fun v =>
    ⟨bits_lt v 31 25, bits_lt v 11 7⟩
  have hlt : ∀ v, bits v 31 25 <<< 5 + bits v 11 7 < 2 ^ 12 := fun v => by
    have := hbounds v
    omega
  have hfields := signExtend_inj (hlt w) (hlt w') h
  have hw := hbounds w
  have hw' := hbounds w'
  omega

/-- The target of a branch says what the four parts of its offset are. -/
theorem immB_inj (h : moveBy a (immB w) = moveBy a (immB w')) :
    bits w 31 31 = bits w' 31 31 ∧ bits w 7 7 = bits w' 7 7 ∧ bits w 30 25 = bits w' 30 25
      ∧ bits w 11 8 = bits w' 11 8 := by
  have hbounds : ∀ v, bits v 31 31 < 2 ∧ bits v 7 7 < 2 ∧ bits v 30 25 < 64 ∧ bits v 11 8 < 16 :=
    fun v => ⟨bits_lt v 31 31, bits_lt v 7 7, bits_lt v 30 25, bits_lt v 11 8⟩
  have hlt : ∀ v, bits v 31 31 <<< 12 + bits v 7 7 <<< 11 + bits v 30 25 <<< 5 + bits v 11 8 * 2
      < 2 ^ 13 := fun v => by
    have := hbounds v
    omega
  have hfields := signExtend_inj_of_moveBy (by decide) (hlt w) (hlt w') h
  have hw := hbounds w
  have hw' := hbounds w'
  omega

/-- The target of a jump says what the four parts of its offset are. -/
theorem immJ_inj (h : moveBy a (immJ w) = moveBy a (immJ w')) :
    bits w 31 31 = bits w' 31 31 ∧ bits w 19 12 = bits w' 19 12 ∧ bits w 20 20 = bits w' 20 20
      ∧ bits w 30 21 = bits w' 30 21 := by
  have hbounds : ∀ v, bits v 31 31 < 2 ∧ bits v 19 12 < 256 ∧ bits v 20 20 < 2
      ∧ bits v 30 21 < 1024 := fun v =>
    ⟨bits_lt v 31 31, bits_lt v 19 12, bits_lt v 20 20, bits_lt v 30 21⟩
  have hlt : ∀ v, bits v 31 31 <<< 20 + bits v 19 12 <<< 12 + bits v 20 20 <<< 11
      + bits v 30 21 * 2 < 2 ^ 21 := fun v => by
    have := hbounds v
    omega
  have hfields := signExtend_inj_of_moveBy (by decide) (hlt w) (hlt w') h
  have hw := hbounds w
  have hw' := hbounds w'
  omega

/-- A control and status register is known by its name, or else by its number. -/
theorem csrOperand_inj {n n' : Nat} (h : (csrOperand n).content = (csrOperand n').content) :
    n = n' := by
  have hnames : (csrNames.map Prod.snd).Nodup := by decide +kernel
  unfold csrOperand at h
  split at h <;> split at h
  · rename_i name hname _ name' hname'
    obtain rfl : name = name' := Option.some.inj (Content.register.inj h)
    exact congrArg Prod.fst
      (List.inj_on_of_nodup_map hnames (mem_of_lookup hname) (mem_of_lookup hname') rfl)
  · exact Content.noConfusion h
  · exact Content.noConfusion h
  · exact Int.ofNat_inj.mp (Content.number.inj h)

namespace Slot

/-- Is the operand a place in memory? -/
def isPlace : Slot → Bool
  | loaded _ | stored _ | atomic _ => true
  | _ => false

theorem isPlace_content (s : Slot) (w : UInt32) (a : UInt64) :
    (s.operand w a).content.isPlace = s.isPlace := by
  cases s with
  | csr =>
    rw [operand, csrOperand]
    split <;> rfl
  | _ => rfl

/-- **An operand says what is in its fields.** -/
theorem agrees {s : Slot} (h : (s.operand w a).content = (s.operand w' a).content) :
    ∀ f ∈ s.fields, f.Agrees w w' := by
  have hrd : RiscV.rd w < 32 := bits_lt w 11 7
  have hrs1 : RiscV.rs1 w < 32 := bits_lt w 19 15
  have hrs2 : RiscV.rs2 w < 32 := bits_lt w 24 20
  cases s with
  | rd => exact List.forall_mem_singleton.mpr (integerNames_inj hrd (Content.register.inj h))
  | rs1 => exact List.forall_mem_singleton.mpr (integerNames_inj hrs1 (Content.register.inj h))
  | rs2 => exact List.forall_mem_singleton.mpr (integerNames_inj hrs2 (Content.register.inj h))
  | floatRd => exact List.forall_mem_singleton.mpr (floatNames_inj hrd (Content.register.inj h))
  | floatRs2 => exact List.forall_mem_singleton.mpr (floatNames_inj hrs2 (Content.register.inj h))
  | imm =>
    simp only [operand, Operand.content_signedImm, Content.number.injEq] at h
    exact List.forall_mem_singleton.mpr (immI_inj h)
  | shift6 | shift5 | upper | uimm =>
    exact List.forall_mem_singleton.mpr (Int.ofNat_inj.mp (Content.number.inj h))
  | csr => exact List.forall_mem_singleton.mpr (csrOperand_inj h)
  | loaded size =>
    simp only [operand, content_based, Content.place.injEq, and_true] at h
    simpa [fields] using ⟨integerNames_inj hrs1 h.1, immI_inj h.2⟩
  | stored size =>
    simp only [operand, content_based, Content.place.injEq, and_true] at h
    simpa [fields] using ⟨integerNames_inj hrs1 h.1, immS_inj h.2⟩
  | atomic size =>
    obtain ⟨hname, -⟩ := Content.place.inj h
    exact List.forall_mem_singleton.mpr (integerNames_inj hrs1 hname)
  | branchTarget => simpa [fields] using immB_inj (Content.target.inj h)
  | jumpTarget => simpa [fields] using immJ_inj (Content.target.inj h)

end Slot

/-! ## Forms are told apart -/

namespace Form

/-- Which of the operands are in memory. -/
def shape (f : Form) : List Bool := f.operands.map Slot.isPlace

/-- The contents of the operands show the shape. -/
theorem Shows.shape_eq {f : Form} {op : Operation} (h : f.Shows w a op) :
    (op.operands.map Operand.content).map Content.isPlace = f.shape := by
  simp [h.operands, shape, Slot.isPlace_content]

/-- **Words of one form with the same operands are the same.** -/
theorem eq_of_content_eq {f : Form} (hcovers : f.covers = true) (hw : f.Matches w)
    (hw' : f.Matches w') {op op' : Operation} (h : f.Shows w a op) (h' : f.Shows w' a op')
    (hcontent : op.operands.map Operand.content = op'.operands.map Operand.content) : w = w' := by
  rw [h.operands, h'.operands, List.map_map, List.map_map, List.map_inj_left] at hcontent
  have hcover : ∀ i < 32, ∃ x ∈ f.fields, x.holds i := fun i hi =>
    List.any_eq_true.mp (List.all_eq_true.mp hcovers i (List.mem_range.mpr hi))
  refine eq_of_agrees hcover fun x hx => ?_
  -- a field is fixed, or an operand shows it
  rcases List.mem_append.mp hx with hfixed | hshown
  · obtain ⟨y, hy, rfl⟩ := List.mem_map.mp hfixed
    exact (hw y hy).trans (hw' y hy).symm
  · obtain ⟨s, hs, hx⟩ := List.mem_flatMap.mp hshown
    exact Slot.agrees (hcontent s hs) x hx

end Form

theorem covers_of_mem_forms : ∀ f ∈ forms, f.covers = true := by
  have hall : forms.all Form.covers = true := by decide +kernel
  exact List.all_eq_true.mp hall

/-- Among the forms of one shape no mnemonic occurs twice. -/
theorem nodup_mnemonics {shape : List Bool} (hshape : shape ∈ forms.map Form.shape) :
    ((forms.filter (·.shape = shape)).map Form.mnemonic).Nodup := by
  have hall : ∀ s ∈ (forms.map Form.shape).dedup,
      ((forms.filter (·.shape = s)).map Form.mnemonic).Nodup := by decide +kernel
  exact hall shape (List.mem_dedup.mpr hshape)

theorem form_eq {f f' : Form} (hf : f ∈ forms) (hf' : f' ∈ forms)
    (hmnemonic : f.mnemonic = f'.mnemonic) (hshape : f.shape = f'.shape) : f = f' :=
  List.inj_on_of_nodup_map (nodup_mnemonics (List.mem_map_of_mem hf))
    (List.mem_filter.mpr ⟨hf, by simp⟩) (List.mem_filter.mpr ⟨hf', by simp [hshape]⟩) hmnemonic

/-- **A word is known by what it shows.** -/
theorem eq_of_decode {op op' : Operation} (h : decode w a = some op) (h' : decode w' a = some op')
    (hmisc : bits w 6 0 ≠ 0x0F) (hmisc' : bits w' 6 0 ≠ 0x0F)
    (hmnemonic : op.mnemonic = op'.mnemonic)
    (hcontent : op.operands.map Operand.content = op'.operands.map Operand.content) : w = w' := by
  obtain ⟨f, hf, hw, hshows⟩ := allListed_decode hmisc op h
  obtain ⟨f', hf', hw', hshows'⟩ := allListed_decode hmisc' op' h'
  obtain rfl : f = f' := by
    refine form_eq hf hf' ?_ ?_
    · rw [← hshows.mnemonic, hmnemonic, hshows'.mnemonic]
    · rw [← hshows.shape_eq, hcontent, hshows'.shape_eq]
  exact Form.eq_of_content_eq (covers_of_mem_forms f hf) hw hw' hshows hshows' hcontent

end RiscV

/--
**Decoding RISC-V loses nothing.**

Two words that decode to valid instructions at an address, and are no fences, are the same if the
mnemonics and the contents of the operands are: no alias hides a field, and none looks like another
instruction.
-/
theorem riscv_decoding_loses_nothing (order : ByteOrder) (a : UInt64) {w w' : UInt32}
    (hmisc : bits w 6 0 ≠ 0x0F) (hmisc' : bits w' 6 0 ≠ 0x0F) :
    let i := decode .riscv64 order (ByteOrder.little.bytes w) a
    let i' := decode .riscv64 order (ByteOrder.little.bytes w') a
    i.isInvalid = false → i'.isInvalid = false → i.mnemonic = i'.mnemonic →
      i.operands.map Operand.content = i'.operands.map Operand.content → w = w' := by
  have hdecode : ∀ v, decode .riscv64 order (ByteOrder.little.bytes v) a = _ := fun v =>
    decodeWord_of_word? (ByteOrder.little.word?_bytes_append v []) a
  intro i i' hvalid hvalid' hmnemonic hcontent
  simp only [i, i', hdecode, Instruction.isInvalid, Instruction.mnemonic, Instruction.operands]
    at hvalid hvalid' hmnemonic hcontent
  obtain ⟨op, hop⟩ := Option.isSome_iff_exists.mp (Option.isNone_eq_false_iff.mp hvalid)
  obtain ⟨op', hop'⟩ := Option.isSome_iff_exists.mp (Option.isNone_eq_false_iff.mp hvalid')
  simp only [hop, hop'] at hmnemonic hcontent
  exact RiscV.eq_of_decode hop hop' hmisc hmisc' hmnemonic hcontent

/-- A negation, which is a subtraction from zero. -/
theorem riscv_decoding_loses_nothing_negation :
    let w : UInt32 := 0x40B00533
    let i := decode .riscv64 .little (ByteOrder.little.bytes w) 0x1000
    i.isInvalid = false ∧ i.mnemonic = "neg"
      ∧ i.operands.map Operand.content = [.register (some "a0"), .register (some "a1")]
      ∧ w = 0x40B00533 := by
  intro w i
  have hmisc : bits w 6 0 ≠ 0x0F := by decide
  have hvalid : i.isInvalid = false := by decide +kernel
  exact ⟨hvalid, by decide +kernel, by decide +kernel,
    riscv_decoding_loses_nothing .little 0x1000 hmisc hmisc hvalid hvalid rfl rfl⟩

end Disassembler
