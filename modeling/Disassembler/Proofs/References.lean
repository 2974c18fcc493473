import Disassembler.Proofs.Anchors
import Disassembler.Proofs.Termination
import Disassembler.Session
import Mathlib.Data.List.TakeWhile

/-!
# References

A reference to an address is shown by the name of its symbol, else as an address that can be
followed, else as one that cannot. Who says that it can be followed and who follows it are not the
same: the one searches the stream for a valid entry, the other searches the items of the listing for
an entry and counts its rows. Both come to the entry that starts at the address; and as the address
has no symbol, the entry has no label, so that its first row is its own.
-/

namespace Disassembler

/-! ## Tokens with targets -/

namespace Token

variable {resolver : Resolver} {t : Token} {ts us : List Token}

/-- Every token that has a target is the reference to its target. -/
def Refer (resolver : Resolver) (ts : List Token) : Prop :=
  ∀ t ∈ ts, ∀ a, t.target = some a → t = reference resolver a

@[simp] theorem refer_nil : Refer resolver [] := fun _ h => absurd h List.not_mem_nil

@[simp] theorem refer_cons : Refer resolver (t :: ts)
    ↔ (∀ a, t.target = some a → t = reference resolver a) ∧ Refer resolver ts :=
  List.forall_mem_cons

@[simp] theorem refer_append :
    Refer resolver (ts ++ us) ↔ Refer resolver ts ∧ Refer resolver us :=
  List.forall_mem_append

@[simp] theorem target_reference (a : UInt64) : (reference resolver a).target = some a := by
  unfold reference
  split
  · rfl
  · rfl

@[simp] theorem target_punctuation (t : Text) : (punctuation t).target = none := rfl

theorem refer_reference (a : UInt64) : Refer resolver [reference resolver a] := by
  simp

/-! ### Pieces -/

/-- A token that is no reference: punctuation, a number, a word, or a register with one of some
names. -/
inductive IsPiece (N : Option String → Prop) : Token → Prop where
  | punctuation (s : Text) : IsPiece N (punctuation s)
  | number (s : Text) : IsPiece N (immediateText s)
  | word (s : String) : IsPiece N (word s)
  | register {name : Option String} (h : N name) : IsPiece N (registerName name)

/-- Nothing is referred to, and registers have some names. -/
def Pieces (N : Option String → Prop) (ts : List Token) : Prop := ∀ t ∈ ts, IsPiece N t

variable {N : Option String → Prop}

@[simp] theorem pieces_nil : Pieces N [] := fun _ h => absurd h List.not_mem_nil

@[simp] theorem pieces_cons : Pieces N (t :: ts) ↔ IsPiece N t ∧ Pieces N ts := List.forall_mem_cons

@[simp] theorem pieces_append : Pieces N (ts ++ us) ↔ Pieces N ts ∧ Pieces N us :=
  List.forall_mem_append

@[simp] theorem isPiece_punctuation (s : Text) : IsPiece N (punctuation s) := .punctuation s

@[simp] theorem isPiece_immediateText (s : Text) : IsPiece N (immediateText s) := .number s

@[simp] theorem isPiece_word (s : String) : IsPiece N (word s) := .word s

theorem IsPiece.target (h : IsPiece N t) : t.target = none := by
  cases h <;> rfl

theorem Pieces.refer (h : Pieces N ts) : Refer resolver ts := fun t ht a ha => by
  rw [(h t ht).target] at ha
  cases ha

theorem pieces_shiftTokens (s : Shift) (e : Bool) {r : Option String}
    (h : ∀ n ∈ r, N (some n)) : Pieces N (shiftTokens s e r) := by
  unfold shiftTokens
  refine pieces_append.mpr ⟨by simp, ?_⟩
  split
  · simp [IsPiece.register (h _ rfl)]
  · split <;> simp

theorem pieces_registerTokens {r : RegisterOperand} (hname : N r.name)
    (hshift : ∀ s ∈ r.shift, ∀ n ∈ s.register, N (some n)) : Pieces N (registerTokens r) := by
  unfold registerTokens
  simp only [pieces_append]
  refine ⟨⟨⟨⟨?_, ?_⟩, ?_⟩, ?_⟩, ?_⟩
  · split <;> simp
  · simp [IsPiece.register hname]
  · split <;> simp
  · split
    · exact pieces_shiftTokens _ _ (hshift _ ‹_›)
    · simp
  · split <;> simp

theorem pieces_immediateTokens (d : Dialect) (i : ImmediateOperand) :
    Pieces N (immediateTokens d i) := by
  unfold immediateTokens
  simp only [pieces_append]
  refine ⟨⟨?_, by simp⟩, ?_⟩
  · split <;> simp
  · split <;> simp

/-- The registers of a place in memory, where it has them, have some names. -/
structure NamesOf (N : Option String → Prop) (m : MemoryOperand) : Prop where
  base : ∀ n ∈ m.base, N (some n)
  index : ∀ n ∈ m.index, N (some n)
  segment : ∀ n ∈ m.segment, N (some n)

variable {m : MemoryOperand}

theorem pieces_bracketedTokens (h : NamesOf N m) : Pieces N (bracketedTokens m) := by
  unfold bracketedTokens
  simp only [pieces_append]
  refine ⟨⟨⟨⟨⟨⟨?_, ?_⟩, by simp⟩, ?_⟩, ?_⟩, ?_⟩, by simp⟩
  · split <;> simp
  · split
    · simp [IsPiece.register (h.segment _ ‹_›)]
    · simp
  · split
    · simp [IsPiece.register (h.base _ ‹_›)]
    · simp
  · split
    · refine pieces_append.mpr ⟨?_, by simp [IsPiece.register (h.index _ ‹_›)]⟩
      split <;> simp
    · simp
  · split
    · simp
    · split <;> simp

theorem pieces_offsetTokens (h : NamesOf N m) : Pieces N (offsetTokens m) := by
  unfold offsetTokens
  split
  · simp only [pieces_append]
    refine ⟨⟨⟨by simp, ?_⟩, by simp [IsPiece.register (h.index _ ‹_›)]⟩, ?_⟩
    · split <;> simp
    · split
      · exact pieces_shiftTokens _ _ fun _ hn => absurd hn (by simp)
      · simp
  · split <;> simp

/-- With commas a place is in brackets, unless it is the address that is referred to. -/
theorem pieces_indexedTokens (h : NamesOf N m) (hbase : N m.base)
    (hno : m.base = none → m.pcTarget = none) : Pieces N (indexedTokens resolver m) := by
  have hoffset : Pieces N (offsetTokens m) := pieces_offsetTokens h
  unfold indexedTokens
  split
  · rename_i hnone hsome
    rw [hno hnone] at hsome
    cases hsome
  · split <;> simp [IsPiece.register hbase, hoffset]

theorem pieces_parenthesizedTokens (hbase : N m.base) : Pieces N (parenthesizedTokens m) := by
  unfold parenthesizedTokens
  refine pieces_append.mpr ⟨?_, by simp [IsPiece.register hbase]⟩
  split <;> simp

/-! ### Operands -/

/-- Of the memory operands only one that stands for an address refers to it. -/
theorem refer_memoryTokens (d : Dialect) (m : MemoryOperand) :
    Refer resolver (memoryTokens d resolver m) := by
  have hnames : NamesOf (fun _ => True) m :=
    ⟨fun _ _ => trivial, fun _ _ => trivial, fun _ _ => trivial⟩
  cases d with
  | bracketed => exact (pieces_bracketedTokens hnames).refer
  | indexed =>
    by_cases hno : m.base = none → m.pcTarget = none
    · exact (pieces_indexedTokens hnames trivial hno).refer
    · obtain ⟨hnone, hsome⟩ := Classical.not_imp.mp hno
      obtain ⟨a, ha⟩ := Option.ne_none_iff_exists'.mp hsome
      rw [memoryTokens, indexedTokens, hnone, ha]
      exact refer_reference a
  | parenthesized => exact (pieces_parenthesizedTokens (N := fun _ => True) trivial).refer

theorem refer_operandTokens (d : Dialect) (o : Operand) :
    Refer resolver (operandTokens d resolver o) := by
  have hregister : ∀ r, Pieces (fun _ => True) (registerTokens r) := fun _ =>
    pieces_registerTokens trivial fun _ _ _ _ => trivial
  cases o with
  | register r => exact (hregister r).refer
  | immediate i => exact (pieces_immediateTokens (N := fun _ => True) d i).refer
  | memory m => exact refer_memoryTokens d m
  | relative a => exact refer_reference a

/-! ### Instructions -/

theorem refer_operandListTokens (d : Dialect) (os : List Operand) :
    Refer resolver (operandListTokens d resolver os) := by
  cases os with
  | nil => exact refer_nil
  | cons o os =>
    have hrest : Refer resolver
        (os.flatMap fun p => punctuation ", " :: operandTokens d resolver p) := by
      intro t ht
      obtain ⟨p, -, ht⟩ := List.mem_flatMap.mp ht
      have hp : Refer resolver (punctuation ", " :: operandTokens d resolver p) := by
        simp [refer_operandTokens d p]
      exact hp t ht
    simp [operandListTokens, refer_operandTokens d o, hrest]

theorem refer_commentTokens (os : List Operand) : Refer resolver (commentTokens resolver os) := by
  unfold commentTokens
  split <;> simp

/-- **The tokens of an instruction that have a target are references to it**, among the operands or
in the comment. -/
theorem refer_ofInstruction (m : Machine) (i : Instruction) :
    Refer resolver (ofInstruction m resolver i) := by
  unfold ofInstruction
  split
  · rename_i op _
    simp [ofParts, refer_operandListTokens m.dialect op.operands, refer_commentTokens op.operands]
  · simp [ofInvalid]

/-! ### Kinds of references -/

/-- **A reference is of one of three kinds**, by what is known of its address. -/
theorem kind_reference (resolver : Resolver) (a : UInt64) :
    ((reference resolver a).kind = .symbol ↔ (resolver.symbolAt a).isSome = true)
      ∧ ((reference resolver a).kind = .address
        ↔ resolver.symbolAt a = none ∧ resolver.isInstruction a = true)
      ∧ ((reference resolver a).kind = .unresolved
        ↔ resolver.symbolAt a = none ∧ ¬ resolver.isInstruction a = true) := by
  unfold reference
  cases resolver.symbolAt a with
  | some name => simp
  | none =>
    cases resolver.isInstruction a with
    | true => simp
    | false => simp

end Token

/-! ## What is known of an address -/

/-- A label of the records has no NUL, so nothing of it is cut off when it is printed. -/
theorem Debug.Index.untilNul_symbolAt {v : Debug.Index} {a : UInt64} {t : Text}
    (h : v.symbolAt a = some t) : t.untilNul = t := by
  have hidem : ∀ s : Text, s.untilNul.untilNul = s.untilNul := fun _ => List.takeWhile_idem
  unfold Debug.Index.symbolAt at h
  split at h
  · obtain rfl := Option.some.inj h
    exact hidem _
  · obtain ⟨image, -, h⟩ := Option.bind_eq_some_iff.mp h
    obtain ⟨s, -, h⟩ := Option.bind_eq_some_iff.mp h
    split at h
    · exact absurd h (by simp)
    · obtain rfl := Option.some.inj h
      exact hidem _

namespace Analysis

variable {an : Analysis} {a : UInt64}

/-- The entry that is found is the first one that does not start before the address, if it starts
there. -/
theorem bind_find_eq : ((an.find a).bind fun k => an.stream[k]?)
    = (Search.next? (fun i : Instruction => i.address < a) an.stream).filter (·.address == a) := by
  unfold find Search.next?
  dsimp only
  cases hi : an.stream[Search.endOf (fun i : Instruction => i.address < a) an.stream]? with
  | none => simp
  | some i =>
    cases haddr : i.address == a with
    | true => simp [hi, haddr, Option.filter]
    | false => simp [haddr, Option.filter]

/-- **In a stream in order, an instruction starts where a valid entry does.** -/
theorem isInstruction_iff (hasc : an.stream.toList.Pairwise fun i j => i.address < j.address) :
    an.isInstruction a = true ↔ ∃ i ∈ an.stream, i.address = a ∧ i.isInvalid = false := by
  rw [isInstruction, bind_find_eq, Option.any_eq_true]
  simp only [Search.next?_filter_eq_some_iff hasc, and_assoc, Bool.not_eq_true']

end Analysis

/-! ## Rows -/

namespace Listing

variable {l : Listing} {m : Machine} {code : List Section} {stream : Array Instruction}
variable {labelOf : UInt64 → Option Text} {item : Item} {a : UInt64} {k : Nat}

/-- Only valid entries make rows of instructions. -/
theorem eq_entry_of_kind {sub : Nat} {r : Row} (hr : (l.rowsOf m item)[sub]? = some r)
    (hkind : r.kind = .instruction) :
    ∃ i label, item = .entry i label ∧ i.isInvalid = false ∧ r = l.entryRow m i 0 := by
  have hmem := List.mem_of_getElem? hr
  have hvalid : ∀ i, (l.entryRow m i 0).kind = .instruction → i.isInvalid = false := by
    intro i hi
    cases hinvalid : i.isInvalid with
    | false => rfl
    | true =>
      rw [entryRow, hinvalid] at hi
      exact RowKind.noConfusion hi
  cases item with
  | opening s =>
    obtain rfl := List.mem_singleton.mp hmem
    exact RowKind.noConfusion hkind
  | closing s =>
    obtain rfl := List.mem_singleton.mp hmem
    exact RowKind.noConfusion hkind
  | entry i label =>
    cases label with
    | none =>
      obtain rfl := List.mem_singleton.mp hmem
      exact ⟨i, none, rfl, hvalid i hkind, rfl⟩
    | some t =>
      rcases List.mem_cons.mp hmem with rfl | hmem
      · exact RowKind.noConfusion hkind
      · obtain rfl := List.mem_singleton.mp hmem
        exact ⟨i, some t, rfl, hvalid i hkind, rfl⟩
  | gap s start stop =>
    obtain ⟨line, -, rfl⟩ := List.mem_map.mp hmem
    exact RowKind.noConfusion hkind

/-- In the row of an entry the tokens before the instruction have no target. -/
theorem refer_entryRow (i : Instruction) (index : Nat) :
    Token.Refer l.resolver (l.entryRow m i index).tokens := by
  simp [entryRow, addressColumn, Token.refer_ofInstruction m i]

/-- **The tokens of a row of an instruction that have a target are references to it.** -/
theorem Laid.refer_row (h : l.Laid m code stream labelOf)
    (hkind : (l.row k).kind = .instruction) : Token.Refer l.resolver (l.row k).tokens := by
  by_cases hk : k < l.size
  · obtain ⟨r, hplain, hrow⟩ := h.row_eq hk
    obtain ⟨item, first, sub, -, -, hr⟩ := exists_startsAt hplain
    rw [hrow] at hkind ⊢
    obtain ⟨i, -, -, -, rfl⟩ := eq_entry_of_kind hr hkind
    exact l.refer_entryRow i 0
  · -- outside there is nothing to refer to
    rw [row, if_neg hk]
    exact Token.refer_nil

/-- **The row that is found for a valid entry without a label is that of its instruction.** -/
theorem Laid.exists_rowOfEntry (h : l.Laid m code stream labelOf) {i : Instruction}
    (hi : i ∈ stream) (hlabel : labelOf i.address = none) :
    ∃ k, l.rowOfEntry i.address = some k ∧ k < l.size ∧ l.row k = l.entryRow m i k := by
  obtain ⟨n, hn⟩ := Array.mem_iff_getElem?.mp ((h.entry_mem i none).mpr ⟨hi, hlabel.symm⟩)
  have hstarts := h.startsAt_firstRow hn
  have hfirst : (l.rowsOf m (.entry i none))[0]? = some (l.entryRow m i 0) := rfl
  obtain ⟨hlt, hrow⟩ := h.row_of_startsAt hstarts hfirst
  refine ⟨l.firstRow n, ?_, hlt, hrow⟩
  rw [h.rowOfEntry_eq_some_iff, hlabel]
  exact ⟨i, hi, rfl, hstarts⟩

end Listing

namespace Analysis

variable {c : Conditions} {config : Config} {machine : Option Machine} {order : ByteOrder}
variable {entry : UInt64} {sections : List Section} {symbols : List Symbol} {an : Analysis}

theorem ascending_stream
    (h : run c config (Image.build machine order entry sections symbols) = .ok an) :
    an.stream.toList.Pairwise fun i j => i.address < j.address := by
  have hclip := Image.clipped_build machine order entry sections symbols
  obtain ⟨m, p, -, hp, rfl⟩ := reached_of_run h
  exact (Progress.sound_of_reached hclip hp).tidy.ascending

/--
**References are classified correctly, and can be followed.**

Take an image that is built, all of whose sections end below `2 ^ 64`, and the listing of its
analysis. A token of a row of an instruction that has a target shows the symbol of the target if
there is one; else it is an address if a valid entry of the stream starts there, and unresolved if
none does. An address leads to a row of the listing, also from a session: the row of the instruction
that starts at the address.
-/
theorem references_navigable
    (h : run c config (Image.build machine order entry sections symbols) = .ok an)
    (hends : ∀ s ∈ (Image.build machine order entry sections symbols).sections,
      s.start.toNat + s.size.toNat < 2 ^ 64) (records : Debug.Index) :
    let l := Listing.build an records
    ∀ k, (l.row k).kind = .instruction → ∀ t ∈ (l.row k).tokens, ∀ a, t.target = some a →
      (t.kind = .symbol ↔ (records.symbolAt a).isSome = true)
        ∧ (t.kind = .symbol → records.symbolAt a = some t.text)
        ∧ (t.kind = .address ↔ records.symbolAt a = none
          ∧ ∃ i ∈ an.stream, i.address = a ∧ i.isInvalid = false)
        ∧ (t.kind = .unresolved ↔ records.symbolAt a = none
          ∧ ¬ ∃ i ∈ an.stream, i.address = a ∧ i.isInvalid = false)
        ∧ (t.kind = .address → ∃ r, l.rowOfEntry a = some r
          ∧ (∀ (s : Session) (loaded : Loaded), s.current = some loaded → loaded.listing = l →
            s.resolveReference a = some r)
          ∧ r < l.size ∧ (l.row r).address = a ∧ (l.row r).kind = .instruction
          ∧ ∃ i ∈ an.stream, i.address = a ∧ i.isInvalid = false
            ∧ l.row r = l.entryRow an.machine i r) := by
  intro l k hkind t ht a htarget
  have hlaid := laid_build h hends records
  have hasc := ascending_stream h
  -- the token is the reference to its target, and the listing knows what the target is
  obtain rfl := hlaid.refer_row hkind t ht a htarget
  have hvalid : l.resolver.isInstruction a = true
      ↔ ∃ i ∈ an.stream, i.address = a ∧ i.isInvalid = false := isInstruction_iff hasc
  have hsymbol : l.resolver.symbolAt a = records.symbolAt a := rfl
  obtain ⟨hkindsymbol, hkindaddress, hkindunresolved⟩ := Token.kind_reference l.resolver a
  rw [hsymbol, hvalid] at hkindaddress hkindunresolved
  refine ⟨hkindsymbol, fun hsome => ?_, hkindaddress, hkindunresolved, fun haddress => ?_⟩
  · -- the name has no NUL, so the token shows all of it
    obtain ⟨name, hname⟩ := Option.isSome_iff_exists.mp (hkindsymbol.mp hsome)
    rw [hsymbol] at hname
    have htext : (Token.reference l.resolver a).text = name.untilNul := by
      rw [Token.reference, hsymbol, hname]
    rw [htext, Debug.Index.untilNul_symbolAt hname, hname]
  · -- without a symbol the entry has no label in front of it
    obtain ⟨hnone, i, hi, rfl, hi'⟩ := hkindaddress.mp haddress
    obtain ⟨r, hr, hlt, hrow⟩ := hlaid.exists_rowOfEntry hi hnone
    refine ⟨r, hr, fun s loaded hloaded hlisting => ?_, hlt, ?_, ?_, i, hi, rfl, hi', hrow⟩
    · rw [Session.resolveReference, hloaded]
      exact (congrArg (·.rowOfEntry i.address) hlisting).trans hr
    · exact congrArg Row.address hrow
    · have hkind : (l.entryRow an.machine i r).kind = .instruction := by
        rw [Listing.entryRow, hi']
        rfl
      exact (congrArg Row.kind hrow).trans hkind

/-- The first of the two jumps leads to the row of the second one, which leads nowhere. -/
theorem references_navigable_cyclic : ∃ an, run {} {} cyclicImage = .ok an
    ∧ (∀ s ∈ cyclicImage.sections, s.start.toNat + s.size.toNat < 2 ^ 64)
    ∧ let l := Listing.build an { image := some cyclicImage }
      (∃ t ∈ (l.row 2).tokens, t.target = some 0x1004 ∧ t.kind = .address)
        ∧ (∃ r, l.rowOfEntry 0x1004 = some r ∧ (l.row r).address = 0x1004
          ∧ (l.row r).kind = .instruction)
        ∧ (∃ t ∈ (l.row 4).tokens, t.target = some 0x1001 ∧ t.kind = .unresolved)
        ∧ ¬ ∃ i ∈ an.stream, i.address = 0x1001 ∧ i.isInvalid = false := by
  obtain ⟨an, han, htest⟩ : ∃ an, run {} {} cyclicImage = .ok an
      ∧ (let l := Listing.build an { image := some cyclicImage }
        (l.row 2).kind == .instruction && (l.row 4).kind == .instruction
          && (l.row 2).tokens.any (fun t => t.target == some 0x1004 && t.kind == .address)
          && (l.row 4).tokens.any fun t => t.target == some 0x1001 && t.kind == .unresolved)
        = true :=
    exists_ok_of_any (by decide +kernel)
  simp only [Bool.and_eq_true, beq_iff_eq, List.any_eq_true] at htest
  obtain ⟨⟨⟨hkind, hkind'⟩, t, ht, htarget, haddress⟩, t', ht', htarget', hunresolved⟩ := htest
  have hclassified := references_navigable han cyclicImage_ends { image := some cyclicImage }
  obtain ⟨-, -, -, -, hleads⟩ := hclassified 2 hkind t ht 0x1004 htarget
  obtain ⟨-, -, -, hnowhere, -⟩ := hclassified 4 hkind' t' ht' 0x1001 htarget'
  obtain ⟨r, hr, -, -, hrow, hrow', -⟩ := hleads haddress
  exact ⟨an, han, cyclicImage_ends, ⟨t, ht, htarget, haddress⟩, ⟨r, hr, hrow, hrow'⟩,
    ⟨t', ht', htarget', hunresolved⟩, (hnowhere.mp hunresolved).2⟩

end Analysis

end Disassembler
