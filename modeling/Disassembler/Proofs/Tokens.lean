import Disassembler.Proofs.Lookups
import Disassembler.Proofs.References

/-!
# Tokens of decoded instructions

A register without a name is printed as a question mark, and so is the base of a place in memory
that has none, in a dialect that cannot do without it. Each dialect also has its own way to refer to
an address. What is decoded suits the dialect of its machine: an operand is printed as one
reference, if it stands for an address, or else as pieces that refer to nothing and name their
registers. So the tokens with targets are those of the operands that stand for an address, in their
order, and at the end the one of the comment.
-/

namespace Disassembler

theorem Text.ofString_injective {s t : String} (h : Text.ofString s = Text.ofString t) : s = t :=
  String.toByteArray_inj.mp (ByteArray.ext (Array.toList_inj.mp h))

/-! ## Operands that suit a dialect -/

/-- A dialect can write a place in memory: it has a base, or the dialect does without. In brackets
it then has no target, and with commas the target stands for it. -/
def Dialect.Writes : Dialect → MemoryOperand → Prop
  | .bracketed, m => m.base.isSome ∨ m.pcTarget = none
  | .indexed, m => m.base.isSome ∨ m.pcTarget.isSome
  | .parenthesized, m => m.base.isSome

/-- A dialect can write an operand, and all that is printed as a register has a legible name. -/
def Operand.Suits (d : Dialect) : Operand → Prop
  | register r => r.Named
  | immediate _ => True
  | memory m => m.Legible ∧ d.Writes m
  | relative _ => True

/-- The address that an operand stands for: a relative one for its target, and a place in memory
without a base for the one that it is at. -/
def Operand.address? : Operand → Option UInt64
  | memory m => if m.base.isSome then none else m.pcTarget
  | relative t => some t
  | _ => none

namespace Token

variable {resolver : Resolver} {d : Dialect} {ts us : List Token}

/-! ## Operands -/

/-- A register has a name, which is not the question mark of a missing one. -/
def IsNamed (name : Option String) : Prop := name.isSome ∧ Legible name

/-- No token is a question mark in place of a register. -/
def AllNamed (ts : List Token) : Prop := ∀ t ∈ ts, t.kind = .register → t.text ≠ Text.ofString "?"

/-- The tokens that have a target. -/
def referring (ts : List Token) : List Token := ts.filter (·.target.isSome)

theorem isNamed_of_mem {name : Option String} (h : Legible name) : ∀ n ∈ name, IsNamed (some n) :=
  fun n hn => ⟨rfl, legible_some.mpr (h n hn)⟩

theorem namesOf_of_legible {m : MemoryOperand} (h : m.Legible) : NamesOf IsNamed m where
  base := isNamed_of_mem h.base
  index := isNamed_of_mem h.index
  segment := isNamed_of_mem h.segment

/-- A register with a legible name is printed as that name. -/
theorem IsPiece.named {t : Token} (h : IsPiece IsNamed t) :
    t.kind = .register → t.text ≠ Text.ofString "?" := by
  cases h with
  | punctuation => exact fun hkind => TokenKind.noConfusion hkind
  | number => exact fun hkind => TokenKind.noConfusion hkind
  | word => exact fun hkind => TokenKind.noConfusion hkind
  | register hname =>
    obtain ⟨n, rfl⟩ := Option.isSome_iff_exists.mp hname.1
    exact fun _ htext => legible_some.mp hname.2 (Text.ofString_injective htext)

theorem Pieces.allNamed (h : Pieces IsNamed ts) : AllNamed ts := fun t ht => (h t ht).named

theorem Pieces.referring_eq_nil {N : Option String → Prop} (h : Pieces N ts) : referring ts = [] :=
  List.filter_eq_nil_iff.mpr fun t ht => by simp [(h t ht).target]

/-- The tokens of an operand: a reference to the address that it stands for, or only pieces. -/
inductive Written (resolver : Resolver) (o : Operand) (ts : List Token) : Prop where
  | refers {a : UInt64} (haddress : o.address? = some a) (hts : ts = [reference resolver a])
  | pieces (haddress : o.address? = none) (hts : Pieces IsNamed ts)

theorem written_memoryTokens {m : MemoryOperand} (h : m.Legible) (hwrites : d.Writes m) :
    Written resolver (.memory m) (memoryTokens d resolver m) := by
  have hnames : NamesOf IsNamed m := namesOf_of_legible h
  cases hbase : m.base with
  | some b =>
    -- with a base a place stands for no address
    have hsome : m.base.isSome := by rw [hbase]; rfl
    have hnamed : IsNamed m.base := ⟨hsome, h.base⟩
    refine .pieces (if_pos hsome) ?_
    cases d with
    | bracketed => exact pieces_bracketedTokens hnames
    | indexed => exact pieces_indexedTokens hnames hnamed fun hnone => by simp [hnone] at hsome
    | parenthesized => exact pieces_parenthesizedTokens hnamed
  | none =>
    have hno : ¬ m.base.isSome := by simp [hbase]
    have haddress : (Operand.memory m).address? = m.pcTarget := if_neg hno
    cases d with
    | bracketed =>
      exact .pieces (haddress.trans (hwrites.resolve_left hno)) (pieces_bracketedTokens hnames)
    | indexed =>
      obtain ⟨a, ha⟩ := Option.isSome_iff_exists.mp (hwrites.resolve_left hno)
      refine .refers (haddress.trans ha) ?_
      rw [memoryTokens, indexedTokens, hbase, ha]
    | parenthesized => exact absurd hwrites hno

/-- **An operand that suits its dialect** is printed as a reference to the address that it stands
for, if there is one, and else it refers to nothing. -/
theorem written_operandTokens {o : Operand} (h : o.Suits d) :
    Written resolver o (operandTokens d resolver o) := by
  cases o with
  | register r =>
    exact .pieces rfl (pieces_registerTokens ⟨h.isSome, h.legible⟩
      fun s hs => isNamed_of_mem (h.shift s hs))
  | immediate i => exact .pieces rfl (pieces_immediateTokens d i)
  | memory m => exact written_memoryTokens h.1 h.2
  | relative a => exact .refers rfl rfl

/-! ## Instructions -/

variable {o : Operand} {os : List Operand}

theorem referring_append : referring (ts ++ us) = referring ts ++ referring us :=
  List.filter_append ..

theorem allNamed_append : AllNamed (ts ++ us) ↔ AllNamed ts ∧ AllNamed us := List.forall_mem_append

@[simp] theorem referring_reference (a : UInt64) :
    referring [reference resolver a] = [reference resolver a] := by
  simp [referring]

theorem kind_reference_ne (a : UInt64) : (reference resolver a).kind ≠ .register := by
  unfold reference
  split
  · simp
  · split <;> simp

theorem allNamed_reference (a : UInt64) : AllNamed [reference resolver a] := by
  intro t ht hkind
  obtain rfl := List.mem_singleton.mp ht
  exact absurd hkind (kind_reference_ne a)

theorem Written.allNamed (h : Written resolver o ts) : AllNamed ts := by
  cases h with
  | refers _ hts => exact hts ▸ allNamed_reference _
  | pieces _ hts => exact hts.allNamed

theorem Written.referring_eq (h : Written resolver o ts) :
    referring ts = o.address?.toList.map (reference resolver) := by
  cases h with
  | refers haddress hts => rw [haddress, hts, referring_reference]; rfl
  | pieces haddress hts => rw [haddress, hts.referring_eq_nil]; rfl

/-! ### Lists of operands -/

theorem allNamed_operandListTokens (h : ∀ o ∈ os, o.Suits d) :
    AllNamed (operandListTokens d resolver os) := by
  have hone : ∀ o ∈ os, ∀ s : Text, AllNamed (punctuation s :: operandTokens d resolver o) :=
    fun o ho s => List.forall_mem_cons.mpr
      ⟨(IsPiece.punctuation s).named, (written_operandTokens (h o ho)).allNamed⟩
  cases os with
  | nil => exact fun _ ht => absurd ht List.not_mem_nil
  | cons o os =>
    refine allNamed_append.mpr ⟨hone o List.mem_cons_self " ", fun t ht => ?_⟩
    obtain ⟨p, hp, ht⟩ := List.mem_flatMap.mp ht
    exact hone p (List.mem_cons_of_mem o hp) ", " t ht

theorem referring_operandListTokens (h : ∀ o ∈ os, o.Suits d) :
    referring (operandListTokens d resolver os)
      = (os.filterMap Operand.address?).map (reference resolver) := by
  -- the punctuation in front of an operand refers to nothing
  have hone : ∀ o ∈ os, ∀ s : Text, referring (punctuation s :: operandTokens d resolver o)
      = o.address?.toList.map (reference resolver) := fun o ho s =>
    (written_operandTokens (h o ho)).referring_eq
  cases os with
  | nil => rfl
  | cons o os =>
    obtain ⟨hfirst, hrest⟩ := List.forall_mem_cons.mp hone
    have htail : referring (os.flatMap fun p => punctuation ", " :: operandTokens d resolver p)
        = os.flatMap fun p => p.address?.toList.map (reference resolver) := by
      rw [referring, List.filter_flatMap]
      exact List.flatMap_congr fun p hp => hrest p hp ", "
    rw [operandListTokens, referring_append, hfirst " ", htail, List.filterMap_eq_flatMap_toList,
      List.map_flatMap, List.flatMap_cons]

/-! ### Comments -/

theorem allNamed_commentTokens : AllNamed (commentTokens resolver os) := by
  unfold commentTokens
  split
  · refine List.forall_mem_cons.mpr ⟨(IsPiece.punctuation _).named, ?_⟩
    exact List.forall_mem_cons.mpr ⟨fun h => TokenKind.noConfusion h, allNamed_reference _⟩
  · exact fun _ ht => absurd ht List.not_mem_nil

theorem referring_commentTokens : referring (commentTokens resolver os)
    = (os.findSome? basedTarget?).toList.map (reference resolver) := by
  unfold commentTokens
  split
  · rename_i a ha
    rw [ha]
    exact referring_reference a
  · rename_i hnone
    rw [hnone]
    rfl

/-! ### The whole -/

variable {m : Machine} {i : Instruction}

theorem allNamed_ofInstruction (h : ∀ o ∈ i.operands, o.Suits m.dialect) :
    AllNamed (ofInstruction m resolver i) := by
  obtain ⟨start, bytes, _ | op⟩ := i
  · exact List.forall_mem_singleton.mpr fun h => TokenKind.noConfusion h
  · refine allNamed_append.mpr ⟨List.forall_mem_cons.mpr ⟨fun h => TokenKind.noConfusion h, ?_⟩,
      allNamed_commentTokens⟩
    exact allNamed_operandListTokens h

/-- **The tokens that have a target** are those of the operands that stand for an address, and then
that of the comment. -/
theorem referring_ofInstruction (h : ∀ o ∈ i.operands, o.Suits m.dialect) :
    referring (ofInstruction m resolver i)
      = (i.operands.filterMap Operand.address? ++ (i.operands.findSome? basedTarget?).toList).map
          (reference resolver) := by
  obtain ⟨start, bytes, _ | op⟩ := i
  · rfl
  · -- nor does the mnemonic refer to anything
    have hparts : referring (ofParts m resolver op.mnemonic op.operands)
        = referring (operandListTokens m.dialect resolver op.operands)
          ++ referring (commentTokens resolver op.operands) := List.filter_append ..
    rw [List.map_append, ← referring_commentTokens]
    exact hparts.trans (congrArg (· ++ _) (referring_operandListTokens h))

/-- The reference of the comment is the last token. -/
theorem getLast?_ofInstruction {a : UInt64} (h : i.operands.findSome? basedTarget? = some a) :
    (ofInstruction m resolver i).getLast? = some (reference resolver a) := by
  obtain ⟨start, bytes, _ | op⟩ := i
  · cases h
  · have hcomment : commentTokens resolver op.operands
        = [punctuation "  ", { kind := .comment, text := "; " }] ++ [reference resolver a] := by
      rw [commentTokens, show op.operands.findSome? basedTarget? = some a from h]
      rfl
    show (ofParts m resolver op.mnemonic op.operands).getLast? = _
    rw [ofParts, hcomment, ← List.append_assoc, List.getLast?_concat]

end Token

/-! ## What is decoded suits its dialect -/

variable {machine : Machine} {order : ByteOrder} {data : List UInt8} {a : UInt64}

namespace MemoryOperand

/-- The literal that a word of AArch64 loads, at an offset in words from the instruction. -/
structure IsLiteral (machine : Machine) (order : ByteOrder) (data : List UInt8) (a : UInt64)
    (m : MemoryOperand) : Prop where
  machine : machine = .aarch64
  word : ∃ w, order.word? data = some w ∧ AArch64.LoadsLiteral w
    ∧ m.pcTarget = some (moveBy a (4 * signExtend 19 (bits w 23 5)))
  base : m.base = none
  index : m.index = none

/-- A place of x86-64 without a base, which is not relative to the instruction. -/
structure IsAbsolute (machine : Machine) (m : MemoryOperand) : Prop where
  machine : machine = .x86_64
  base : m.base = none
  pcTarget : m.pcTarget = none

/-- A place in memory has a base, but where the machine has places without one. -/
def Anchored (machine : Machine) (order : ByteOrder) (data : List UInt8) (a : UInt64)
    (m : MemoryOperand) : Prop :=
  m.base.isSome ∨ m.IsAbsolute machine ∨ m.IsLiteral machine order data a

/-- Each dialect can write the places of its machines. The one of AArch64 refers to a literal, and
the one of x86-64 writes a place without a base as a number. -/
theorem Anchored.writes {m : MemoryOperand} (h : m.Anchored machine order data a) :
    machine.dialect.Writes m := by
  rcases h with hsome | habsolute | hliteral
  · cases machine with
    | x86_64 => exact .inl hsome
    | arm => exact .inl hsome
    | aarch64 => exact .inl hsome
    | riscv64 => exact hsome
    | mips => exact hsome
  · obtain ⟨rfl, -, hnone⟩ := habsolute
    exact .inr hnone
  · obtain ⟨rfl, ⟨w, -, -, htarget⟩, -, -⟩ := hliteral
    exact .inr (by rw [htarget]; rfl)

/-- Of the places in memory only a literal stands for an address. -/
theorem Anchored.isSome_address?_iff {m : MemoryOperand} (h : m.Anchored machine order data a) :
    (Operand.memory m).address?.isSome ↔ m.IsLiteral machine order data a := by
  rcases h with hsome | habsolute | hliteral
  · have hbased : ¬ m.IsLiteral machine order data a := fun hl => by
      rw [hl.base] at hsome
      cases hsome
    simp [Operand.address?, hsome, hbased]
  · have hno : ¬ m.IsLiteral machine order data a := fun hl => by
      cases habsolute.machine.symm.trans hl.machine
    simp [Operand.address?, habsolute.base, habsolute.pcTarget, hno]
  · obtain ⟨w, -, -, htarget⟩ := hliteral.word
    simp [Operand.address?, hliteral.base, htarget, hliteral]

end MemoryOperand

namespace Operand

/-- An operand has all names that it needs. -/
def HasNames (machine : Machine) (order : ByteOrder) (data : List UInt8) (a : UInt64) :
    Operand → Prop
  | register r => r.Named
  | immediate _ => True
  | memory m => m.Legible ∧ m.Anchored machine order data a
  | relative _ => True

theorem Meets.hasNames {C : Prop} {M : MemoryOperand → Prop} {o : Operand} (h : o.Meets C M)
    (hplace : ∀ m, M m → m.Anchored machine order data a) : o.HasNames machine order data a := by
  cases o with
  | register r => exact h
  | immediate i => trivial
  | memory m => exact ⟨h.2, hplace m h.1⟩
  | relative t => trivial

theorem HasNames.suits {o : Operand} (h : o.HasNames machine order data a) :
    o.Suits machine.dialect := by
  cases o with
  | register r => exact h
  | immediate i => trivial
  | memory m => exact ⟨h.1, h.2.writes⟩
  | relative t => trivial

/-- What stands for an address is relative or a literal. -/
theorem HasNames.isSome_address?_iff {o : Operand} (h : o.HasNames machine order data a) :
    o.address?.isSome ↔ (∃ t, o = relative t)
      ∨ ∃ m, o = memory m ∧ m.IsLiteral machine order data a := by
  cases o with
  | register r => simp [address?]
  | immediate i => simp [address?]
  | memory m => simp [h.2.isSome_address?_iff]
  | relative t => simp [address?]

end Operand

/-- **No operand that is decoded is nameless.** -/
theorem hasNames_of_mem {o : Operand} (ho : o ∈ (decode machine order data a).operands) :
    o.HasNames machine order data a := by
  cases machine with
  | x86_64 =>
    cases o with
    | register r => exact X86.named_decode ho
    | immediate i => trivial
    | memory m =>
      have haccess := X86.isAccess_of_mem ho
      refine ⟨haccess.legible, ?_⟩
      -- what is relative to the instruction has the pointer as its base
      cases hbase : m.base with
      | some b => exact .inl (by rw [hbase]; rfl)
      | none => exact .inr (.inl ⟨rfl, hbase, haccess.base_or.resolve_left (by simp [hbase])⟩)
    | relative t => trivial
  | arm =>
    obtain ⟨w, -, hmeets⟩ := exists_meets_decodeWord (fun w => Arm.meets_decode) ho
    exact hmeets.hasNames fun m hm => .inl hm.1
  | aarch64 =>
    obtain ⟨w, hw, hmeets⟩ := exists_meets_decodeWord (fun w => AArch64.meets_decode) ho
    refine hmeets.hasNames fun m hm => ?_
    rcases hm with hbased | ⟨hloads, hnone, hindex, htarget⟩
    · exact .inl hbased.1
    · exact .inr (.inr ⟨rfl, ⟨w, hw, hloads, htarget⟩, hnone, hindex⟩)
  | riscv64 =>
    have hdecode : ∀ w, Meets False MemoryOperand.Based (RiscV.decode w a) := fun w =>
      RiscV.meets_decode
    obtain ⟨w, -, hmeets⟩ := exists_meets_decodeWord hdecode ho
    exact hmeets.hasNames fun m hm => .inl hm.1
  | mips =>
    obtain ⟨w, -, hmeets⟩ := exists_meets_decodeWord (fun w => Mips.meets_decode) ho
    exact hmeets.hasNames fun m hm => .inl hm.1

/-- A place that counts from `rip` is no reference by itself, but the comment refers to it. -/
example : (Token.referring (Token.ofInstruction .x86_64 {}
    (decode .x86_64 .little [0x48, 0x8D, 0x05, 0x10, 0, 0, 0] 0x1000))).map (·.target)
      = [some 0x1017] := by
  decide +kernel

end Disassembler
