import Disassembler.Proofs.Operands.Basic
import Disassembler.Proofs.Rebase.Absolute
import Mathlib.Algebra.Group.Nat.Defs

/-!
# The operands of x86-64

Whatever bytes a reader is given, the values that it can finish with are those at the ends of its
tree, and the way to each of them is made of the bytes that it asked for. Going through the opcode
maps once in this way shows what an operation can be and where it comes from: a jump, branch or call
to a displacement, which is its one operand and all that stands behind the opcode, or else an
operation that leads nowhere directly and whose operands are registers, numbers and places in
memory. What stands directly behind the opcode is then the ModRM byte with its displacement, if the
opcode has one, and any numbers come after that.
-/

namespace Disassembler

/-- A kind of flow that leads to its target. -/
def Flow.Leads (kind : UInt64 → Flow) : Prop := ∀ t, (kind t).target? = some t

@[simp] theorem Flow.leads_jump : Leads jump := fun _ => rfl

@[simp] theorem Flow.leads_branch : Leads branch := fun _ => rfl

@[simp] theorem Flow.leads_call : Leads call := fun _ => rfl

@[simp] theorem Flow.leads_ite {p : Prop} [Decidable p] {kind kind' : UInt64 → Flow}
    (h : Leads kind) (h' : Leads kind') : Leads (if p then kind else kind') := by
  split
  · exact h
  · exact h'

/-- A flow that leads nowhere directly. -/
def Flow.Targetless (f : Flow) : Prop := f.target? = none

@[simp] theorem Flow.targetless_next : Targetless next := rfl

@[simp] theorem Flow.targetless_ret : Targetless ret := rfl

@[simp] theorem Flow.targetless_indirect : Targetless indirect := rfl

/-! ## What a reader can finish with -/

namespace ByteReader

variable {α β : Type}

/-- Whatever bytes the reader is given, a value that it finishes with satisfies `P`. -/
def Yields (P : α → Prop) : ByteReader α → Prop
  | done a => P a
  | undefined => True
  | ask k => ∀ b, (k b).Yields P

variable {P Q : α → Prop} {r : ByteReader α}

theorem Yields.mono (h : r.Yields P) (hPQ : ∀ a, P a → Q a) : r.Yields Q := by
  induction r with
  | done a => exact hPQ a h
  | undefined => trivial
  | ask k ih => exact fun b => ih b (h b)

@[simp] theorem yields_pure {a : α} : (pure a : ByteReader α).Yields P ↔ P a := Iff.rfl

@[simp] theorem yields_undefined : (undefined : ByteReader α).Yields P := trivial

@[simp] theorem yields_bind {f : α → ByteReader β} {P : β → Prop} :
    (r >>= f).Yields P ↔ r.Yields fun a => (f a).Yields P := by
  induction r with
  | done a => exact Iff.rfl
  | undefined => exact Iff.rfl
  | ask k ih => exact forall_congr' ih

@[simp] theorem yields_byte {P : UInt8 → Prop} : byte.Yields P ↔ ∀ b, P b := Iff.rfl

@[simp] theorem yields_ofOption {x : Option α} : (ofOption x).Yields P ↔ ∀ a ∈ x, P a := by
  cases x <;> simp [ofOption, Yields]

@[simp] theorem yields_guard {c : Prop} [Decidable c] {P : Unit → Prop} :
    (guard c).Yields P ↔ (c → P ()) := by
  unfold guard
  split <;> simp [Yields, *]

@[simp] theorem yields_ite {c : Prop} [Decidable c] {r' : ByteReader α} :
    (if c then r else r').Yields P ↔ (c → r.Yields P) ∧ (¬c → r'.Yields P) := by
  split <;> simp [*]

theorem yields_guarded {c : Prop} [Decidable c] (h : r.Yields P) :
    (guard c >>= fun _ => r).Yields P := yields_bind.mpr (yields_guard.mpr fun _ => h)

theorem yields_unsigned (n : Nat) : (unsigned n).Yields (· < 256 ^ n) := by
  induction n with
  | zero => exact Nat.one_pos
  | succ n ih =>
    refine yields_bind.mpr fun low => yields_bind.mpr (ih.mono fun high hhigh => ?_)
    have hlow := low.toNat_lt
    rw [yields_pure, Nat.pow_succ]
    omega

theorem yields_signed (n : Nat) :
    (signed n).Yields fun d => ∃ v < 256 ^ n, d = signExtend (8 * n) v :=
  yields_bind.mpr ((yields_unsigned n).mono fun v hv => ⟨v, hv, rfl⟩)

/-! ### The bytes on the way -/

/-- Whatever bytes the reader is given, a value that it finishes with is in the relation `P` to the
bytes that it asked for. -/
def Reads (P : List UInt8 → α → Prop) : ByteReader α → Prop
  | done a => P [] a
  | undefined => True
  | ask k => ∀ b, (k b).Reads fun used => P (b :: used)

theorem Reads.of_run {P : List UInt8 → α → Prop} (h : r.Reads P) {bs rest : List UInt8} {a : α}
    (hrun : r.run bs = .done a rest) : ∃ used, bs = used ++ rest ∧ P used a := by
  induction r generalizing bs P with
  | done a' =>
    obtain ⟨rfl, rfl⟩ := Outcome.done.inj hrun
    exact ⟨[], rfl, h⟩
  | undefined => exact absurd hrun (by simp [run])
  | ask k ih =>
    cases bs with
    | nil => exact absurd hrun (by simp [run])
    | cons b bs =>
      obtain ⟨used, rfl, hused⟩ := ih b (h b) hrun
      exact ⟨b :: used, rfl, hused⟩

theorem Reads.mono {P Q : List UInt8 → α → Prop} (h : r.Reads P)
    (hPQ : ∀ used a, P used a → Q used a) : r.Reads Q := by
  induction r generalizing P Q with
  | done a => exact hPQ [] a h
  | undefined => trivial
  | ask k ih => exact fun b => ih b (h b) fun used => hPQ (b :: used)

theorem Yields.reads (h : r.Yields P) : r.Reads fun _ => P := by
  induction r with
  | done a => exact h
  | undefined => trivial
  | ask k ih => exact fun b => ih b (h b)

theorem Reads.yields (h : r.Reads fun _ => P) : r.Yields P := by
  induction r with
  | done a => exact h
  | undefined => trivial
  | ask k ih => exact fun b => ih b (h b)

section Reads

variable {P : List UInt8 → α → Prop}

@[simp] theorem reads_pure {a : α} : (pure a : ByteReader α).Reads P ↔ P [] a := Iff.rfl

@[simp] theorem reads_undefined : (undefined : ByteReader α).Reads P := trivial

/-- What a second reader asks for comes after what the first one asked for. -/
@[simp] theorem reads_bind {f : α → ByteReader β} {P : List UInt8 → β → Prop} :
    (r >>= f).Reads P ↔ r.Reads fun front a => (f a).Reads fun behind => P (front ++ behind) := by
  induction r generalizing P with
  | done a => exact Iff.rfl
  | undefined => exact Iff.rfl
  | ask k ih => exact forall_congr' fun b => ih b

@[simp] theorem reads_byte {P : List UInt8 → UInt8 → Prop} : byte.Reads P ↔ ∀ b, P [b] b := Iff.rfl

@[simp] theorem reads_ofOption {x : Option α} : (ofOption x).Reads P ↔ ∀ a ∈ x, P [] a := by
  cases x <;> simp [ofOption, Reads]

@[simp] theorem reads_guard {c : Prop} [Decidable c] {P : List UInt8 → Unit → Prop} :
    (guard c).Reads P ↔ (c → P [] ()) := by
  unfold guard
  split <;> simp [Reads, *]

@[simp] theorem reads_ite {c : Prop} [Decidable c] {r' : ByteReader α} :
    (if c then r else r').Reads P ↔ (c → r.Reads P) ∧ (¬c → r'.Reads P) := by
  split <;> simp [*]

theorem reads_guarded {c : Prop} [Decidable c] (h : r.Reads P) :
    (guard c >>= fun _ => r).Reads P := reads_bind.mpr (reads_guard.mpr fun _ => h)

end Reads

theorem reads_unsigned (n : Nat) :
    (unsigned n).Reads fun used v => used.length = n ∧ v = littleEndian used := by
  induction n with
  | zero => exact ⟨rfl, rfl⟩
  | succ n ih =>
    refine reads_bind.mpr fun low => reads_bind.mpr (ih.mono ?_)
    rintro used _ ⟨hused, rfl⟩
    exact reads_pure.mpr ⟨by simp [hused], by simp [littleEndian]⟩

theorem reads_signed (n : Nat) :
    (signed n).Reads fun used d => used.length = n ∧ d = signExtend (8 * n) (littleEndian used) := by
  refine reads_bind.mpr ((reads_unsigned n).mono ?_)
  rintro used _ ⟨hused, rfl⟩
  exact reads_pure.mpr ⟨by simp [hused], by simp⟩

end ByteReader

namespace X86

open ByteReader

variable {p : Prefixes} {front : List UInt8}

/-! ## Places and registers -/

/-- The name of the instruction pointer in addresses. -/
def Prefixes.pointerName (p : Prefixes) : String := if p.addressSize then "eip" else "rip"

/-- Is an address register the instruction pointer? -/
def IsPointer (base : Option String) : Prop := base = some "rip" ∨ base = some "eip"

/-- A place in memory that ModRM can name, and the bytes that name it: the ModRM byte and what
follows it. -/
inductive IsPlace (p : Prefixes) : List UInt8 → MemoryOperand → Prop where
  /-- It is not given relative to the instruction. Without a base it has a displacement of four
  bytes. -/
  | based {front : List UInt8} {m : MemoryOperand} (hsegment : m.segment = p.segment)
    (hoffset : m.mode = .offset) (hbase : ¬ IsPointer m.base) (hnone : m.pcTarget = none)
    (hwritten : m.base = none → ∃ v < 256 ^ 4, m.displacement = signExtend 32 v)
    (hnames : Legible m.base ∧ Legible m.index) : IsPlace p front m
  /-- It is at a displacement from the end of the instruction. The displacement is four bytes behind
  the ModRM byte, which has mode zero and names register five. -/
  | relative {modrm : UInt8} {disp : List UInt8} (hmode : modrm.toNat / 64 = 0)
    (hlow : modrm.toNat % 8 = 5) (hdisp : disp.length = 4) {m : MemoryOperand}
    (hsegment : m.segment = p.segment) (hoffset : m.mode = .offset) (hindex : m.index = none)
    (hbase : m.base = some p.pointerName)
    (hdisplacement : m.displacement = signExtend 32 (littleEndian disp))
    (htarget : m.pcTarget = some (UInt64.ofInt m.displacement)) : IsPlace p (modrm :: disp) m

/-- A register that ModRM can name, or a place in memory. -/
def Place.Valid (p : Prefixes) (front : List UInt8) : Place → Prop
  | register r => r < 16
  | memory m => IsPlace p front m

/-- What can be read of a ModRM byte and the bytes after it, which are all in `front`. -/
structure ModRM.Valid (p : Prefixes) (front : List UInt8) (m : ModRM) : Prop where
  reg : m.reg < 16
  place : m.place.Valid p front

/-- The operands that an operation can have under given prefixes, when `front` is read as its ModRM
byte and what follows it. -/
inductive IsOperand (p : Prefixes) (front : List UInt8) : Operand → Prop where
  | general (bits : Nat) {r : Nat} (hr : r < 16) : IsOperand p front (.reg (p.registerName bits r))
  | vector {r : Nat} (hr : r < 16) : IsOperand p front (.reg vectorNames[r]?)
  | stack {i : Nat} (hi : i < 8) : IsOperand p front (stackReg i)
  | named {name : String} (hname : name ≠ "?") : IsOperand p front (.named name)
  | place {m : MemoryOperand} (hm : IsPlace p front m) : IsOperand p front (.memory m)
  /-- Memory at an address that is written out in as many bytes as addresses have. -/
  | absolute (n : Nat) {a : Nat} (hn : n = if p.addressSize then 4 else 8) (ha : a < 256 ^ n)
    (size : UInt8) :
    IsOperand p front (.memory { displacement := a, width := UInt8.ofNat (8 * n), size
                                 segment := p.segment })
  | unsigned (n : Nat) (hn : n ≤ 8) {v : Nat} (hv : v < 256 ^ n) :
    IsOperand p front (.hexImm v (UInt8.ofNat (8 * n)))
  | signed (n : Nat) (hzero : n ≠ 0) (hn : n ≤ 8) {v : Nat} (hv : v < 256 ^ n) :
    IsOperand p front (.immediate { value := signExtend (8 * n) v, width := UInt8.ofNat (8 * n)
                                    signed := true, hex := true })
  | one : IsOperand p front (.decimalImm 1 8)

theorem extended_lt (high : Bool) {low : Nat} (h : low < 8) :
    Prefixes.extended high low < 16 := by
  unfold Prefixes.extended
  split <;> omega

theorem not_isPointer_addressName {r : Nat} (hr : r < 16) : ¬ IsPointer (p.addressName r) := by
  unfold IsPointer Prefixes.addressName
  split
  · revert hr r
    decide
  · revert hr r
    decide

theorem addressName_ne_none {r : Nat} (hr : r < 16) : p.addressName r ≠ none := by
  unfold Prefixes.addressName
  split
  · simp [dwordNames, hr]
  · simp [qwordNames, hr]

@[simp] theorem legible_addressName (r : Nat) : Legible (p.addressName r) := by
  unfold Prefixes.addressName
  split
  · exact legible_getElem? (by decide +kernel) r
  · exact legible_getElem? (by decide +kernel) r

/-- The bytes accessed do not say where they are. -/
theorem IsPlace.withSize {m : MemoryOperand} (h : IsPlace p front m) (size : UInt8) :
    IsPlace p front { m with size } := by
  cases h with
  | based hsegment hoffset hbase hnone hwritten hnames =>
    exact .based hsegment hoffset hbase hnone hwritten hnames
  | relative hmode hlow hdisp hsegment hoffset hindex hbase hdisplacement htarget =>
    exact .relative hmode hlow hdisp hsegment hoffset hindex hbase hdisplacement htarget

theorem reads_displace (m : MemoryOperand) {n : Nat} (hn : n ≠ 0) :
    (displace m n).Reads fun used m' => used.length = n
      ∧ m' = { m with displacement := signExtend (8 * n) (littleEndian used)
                      width := UInt8.ofNat (8 * n) } := by
  unfold displace
  rw [if_neg hn]
  refine reads_bind.mpr ((reads_signed n).mono ?_)
  rintro used _ ⟨hused, rfl⟩
  rw [reads_pure, List.append_nil]
  exact ⟨hused, rfl⟩

/-- A displacement leaves a place that does not count from the instruction where it is. -/
theorem yields_displace {m : MemoryOperand} (hsegment : m.segment = p.segment)
    (hoffset : m.mode = .offset) (hbase : ¬ IsPointer m.base) (hnone : m.pcTarget = none)
    (hnames : Legible m.base ∧ Legible m.index) {n : Nat} (hn : m.base = none → n = 4) :
    (displace m n).Yields fun m' => ∀ front, IsPlace p front m' := by
  unfold displace
  rw [yields_ite]
  refine ⟨fun hzero => yields_pure.mpr fun _ => ?_, fun _ => ?_⟩
  · refine .based hsegment hoffset hbase hnone (fun hno => ?_) hnames
    have hfour := hn hno
    omega
  · refine yields_bind.mpr ((yields_signed n).mono ?_)
    rintro _ ⟨v, hv, rfl⟩
    refine yields_pure.mpr fun _ => .based hsegment hoffset hbase hnone (fun hno => ?_) hnames
    obtain rfl := hn hno
    -- the displacement is not to be computed
    generalize hd : signExtend (8 * 4) v = d
    exact ⟨v, hv, hd.symm⟩

theorem yields_readScaled (mode : Nat) :
    (readScaled p mode).Yields fun m => ∀ front, IsPlace p front m := by
  refine yields_bind.mpr (yields_byte.mpr fun sib => ?_)
  -- whether there is an index or not, the displacement is read in the same way
  have hplace : ∀ m : MemoryOperand, m.segment = p.segment → m.mode = .offset → m.base = none →
      m.pcTarget = none → Legible m.index → ∀ base, ¬ IsPointer base → base ≠ none → Legible base →
      (if sib.toNat % 8 = 5 ∧ mode = 0 then displace m 4
        else displace { m with base } (displacementBytes mode)).Yields
          fun m => ∀ front, IsPlace p front m := by
    intro m hsegment hoffset hbase hnone hindex base hpointer hsome hlegible
    rw [yields_ite]
    refine ⟨fun _ => ?_, fun _ => ?_⟩
    · exact yields_displace hsegment hoffset (by simp [hbase, IsPointer]) hnone
        ⟨by simp [hbase], hindex⟩ fun _ => rfl
    · exact yields_displace (m := { m with base }) hsegment hoffset hpointer hnone
        ⟨hlegible, hindex⟩ (absurd · hsome)
  have hregister : Prefixes.extended p.rexB (sib.toNat % 8) < 16 :=
    extended_lt _ (Nat.mod_lt _ (by decide))
  exact hplace _ (by split <;> rfl) (by split <;> rfl) (by split <;> rfl) (by split <;> rfl)
    (by split <;> simp) _ (not_isPointer_addressName hregister) (addressName_ne_none hregister)
    (legible_addressName _)

theorem reads_readRelative {modrm : UInt8} (hmode : modrm.toNat / 64 = 0)
    (hlow : modrm.toNat % 8 = 5) :
    (readRelative p).Reads fun disp => IsPlace p (modrm :: disp) := by
  refine reads_bind.mpr ((reads_displace _ (by decide)).mono ?_)
  rintro disp _ ⟨hdisp, rfl⟩
  -- the displacement is not to be computed
  generalize hd : signExtend (8 * 4) (littleEndian disp) = d
  rw [reads_pure, List.append_nil]
  exact .relative hmode hlow hdisp rfl rfl rfl rfl hd.symm rfl

theorem reads_readModRM : (readModRM p).Reads fun front m => m.Valid p front := by
  refine reads_bind.mpr (reads_byte.mpr fun b => ?_)
  have hreg : Prefixes.extended p.rexR (b.toNat / 8 % 8) < 16 :=
    extended_lt _ (Nat.mod_lt _ (by decide))
  have hrm : Prefixes.extended p.rexB (b.toNat % 8) < 16 :=
    extended_lt _ (Nat.mod_lt _ (by decide))
  simp only [reads_ite, reads_bind, reads_pure, List.append_nil, List.cons_append, List.nil_append]
  -- a register, a scaled index, a distance from the end, or a register with a displacement
  refine ⟨fun _ => ⟨hreg, hrm⟩, fun _ => ⟨fun _ => ?_, fun _ => ⟨fun h => ?_, fun _ => ?_⟩⟩⟩
  · exact (yields_readScaled _).reads.mono fun _ m hm => ⟨hreg, hm _⟩
  · exact (reads_readRelative h.2 h.1).mono fun _ m hm => ⟨hreg, hm⟩
  · exact (yields_displace rfl rfl (not_isPointer_addressName hrm) rfl
      ⟨legible_addressName _, legible_none⟩
      (absurd · (addressName_ne_none hrm))).reads.mono fun _ m hm => ⟨hreg, hm _⟩

theorem ModRM.valid_default : (default : ModRM).Valid p front := ⟨by decide, Nat.zero_lt_succ 15⟩

variable {m : ModRM}

theorem IsOperand.memory {m : MemoryOperand} (hm : IsPlace p front m) (size : UInt8) :
    IsOperand p front (.memory { m with size }) := .place (hm.withSize size)

theorem ModRM.Valid.lt_of_register (hm : m.Valid p front) {r : Nat} (h : m.place = .register r) :
    r < 16 := by
  have hplace := hm.place
  rwa [h] at hplace

theorem ModRM.Valid.isPlace_of_memory (hm : m.Valid p front) {place : MemoryOperand}
    (h : m.place = .memory place) : IsPlace p front place := by
  have hplace := hm.place
  rwa [h] at hplace

theorem ModRM.Valid.isPlace_of_mem (hm : m.Valid p front) {place : MemoryOperand}
    (h : place ∈ m.memory?) : IsPlace p front place := by
  unfold ModRM.memory? at h
  split at h
  · exact absurd h (by simp)
  · obtain rfl := Option.some.inj h
    exact hm.isPlace_of_memory ‹_›

@[simp] theorem ModRM.Valid.general (hm : m.Valid p front) (bits size : Nat) :
    IsOperand p front (m.place.general p bits size) := by
  have hplace := hm.place
  revert hplace
  cases m.place with
  | register r => exact fun hr => .general bits hr
  | memory place => exact fun hp => .memory hp _

@[simp] theorem ModRM.Valid.vector (hm : m.Valid p front) (size : Nat) :
    IsOperand p front (m.place.vector size) := by
  have hplace := hm.place
  revert hplace
  cases m.place with
  | register r => exact fun hr => .vector hr
  | memory place => exact fun hp => .memory hp _

@[simp] theorem ModRM.Valid.vectorReg (hm : m.Valid p front) : IsOperand p front m.vectorReg :=
  .vector hm.reg

/-! ## Arguments -/

/-- The name of a register that an opcode implies is not the one that is printed for a missing
name. -/
def Argument.Proper (a : Argument) : Prop := ∀ name, a = .named name → name ≠ "?"

@[simp] theorem Argument.proper_named {name : String} : (named name).Proper ↔ name ≠ "?" :=
  ⟨fun h => h name rfl, fun h _ heq => named.inj heq ▸ h⟩

@[simp] theorem Argument.proper_of_ne {a : Argument} (h : ∀ name, a ≠ named name) : a.Proper :=
  fun name heq => absurd heq (h name)

@[simp] theorem proper_opcodeImm (opcode : Nat) : (opcodeImm opcode).Proper := by
  unfold opcodeImm
  split <;> simp

/-- Nothing that the arithmetic rows take is implied. -/
theorem proper_arithmeticForms {i : Nat} {args : List Argument} (h : args ∈ arithmeticForms[i]?) :
    ∀ a ∈ args, a.Proper := by
  have hall : ∀ args ∈ arithmeticForms, ∀ a ∈ args, a.Proper := by simp [arithmeticForms]
  exact hall args (Array.mem_of_getElem? h)


theorem yields_read (hm : m.Valid p front) (full opcode : Nat) {a : Argument} (ha : a.Proper) :
    (a.read p full opcode m).Yields (IsOperand p front) := by
  have hunsigned : ∀ n ≤ 8, (ByteReader.unsigned n >>= fun v =>
      pure (.hexImm v (UInt8.ofNat (8 * n)))).Yields (IsOperand p front) := fun n hn =>
    yields_bind.mpr ((yields_unsigned n).mono fun v hv => .unsigned n hn hv)
  have hsigned : ∀ n ≠ 0, n ≤ 8 → (ByteReader.signed n >>= fun value =>
      pure (.immediate { value, width := UInt8.ofNat (8 * n), signed := true, hex := true })).Yields
        (IsOperand p front) := fun n hzero hn => by
    refine yields_bind.mpr ((yields_signed n).mono ?_)
    rintro _ ⟨v, hv, rfl⟩
    exact .signed n hzero hn hv
  cases a with
  | place w => exact hm.general _ _
  | register w => exact .general _ hm.reg
  | address =>
    refine yields_bind.mpr (yields_ofOption.mpr fun place hplace => ?_)
    exact .place (hm.isPlace_of_mem hplace)
  | segment =>
    refine yields_bind.mpr (yields_ofOption.mpr fun name hname => .named ?_)
    exact legible_getElem? (by decide +kernel) m.digit name hname
  | opcodeRegister w => exact .general _ (extended_lt _ (Nat.mod_lt _ (by decide)))
  | accumulator w => exact .general _ (by decide)
  | imm8 => exact hunsigned 1 (by decide)
  | imm8Signed => exact hsigned 1 (by decide) (by decide)
  | imm16 => exact hunsigned 2 (by decide)
  | immUpTo32 =>
    dsimp only [Argument.read]
    split
    · exact hunsigned 2 (by decide)
    · exact hsigned 4 (by decide) (by decide)
    · exact hunsigned 4 (by decide)
  | immFull =>
    dsimp only [Argument.read]
    split
    · exact hunsigned 2 (by decide)
    · exact hunsigned 8 (by decide)
    · exact hunsigned 4 (by decide)
  | absolute w =>
    exact yields_bind.mpr ((yields_unsigned _).mono fun a ha => .absolute _ rfl ha _)
  | named name => exact .named (Argument.proper_named.mp ha)
  | one => exact .one

theorem yields_readArguments (hm : m.Valid p front) (full opcode : Nat) {args : List Argument}
    (hargs : ∀ a ∈ args, a.Proper) :
    (readArguments p full opcode m args).Yields fun os => ∀ o ∈ os, IsOperand p front o := by
  induction args with
  | nil => exact yields_pure.mpr (by simp)
  | cons a args ih =>
    obtain ⟨ha, hargs⟩ := List.forall_mem_cons.mp hargs
    refine yields_bind.mpr ((yields_read hm full opcode ha).mono fun o ho => ?_)
    refine yields_bind.mpr ((ih hargs).mono fun os hos => yields_pure.mpr ?_)
    exact List.forall_mem_cons.mpr ⟨ho, hos⟩

/-! ## Operations -/

/-- An operation that leads nowhere directly, when `front` is read as its ModRM byte and what follows
it. -/
structure IsPlain (p : Prefixes) (front : List UInt8) (op : Operation) : Prop where
  flow : op.flow.Targetless
  operands : ∀ o ∈ op.operands, IsOperand p front o

/-- What an operation can be under given prefixes, with the bytes behind its opcode. The opcode says
how many bytes the displacement of a jump, branch or call has. -/
inductive IsOperation (p : Prefixes) (near : Nat) : List UInt8 → Operation → Prop where
  /-- Numbers stand behind the ModRM byte and what follows it. -/
  | plain {front : List UInt8} (behind : List UInt8) {op : Operation} (h : IsPlain p front op) :
    IsOperation p near (front ++ behind) op
  /-- There is nothing but a displacement from the end. -/
  | near (mnemonic : String) {kind : UInt64 → Flow} (hkind : Flow.Leads kind) {disp : List UInt8}
    (hdisp : disp.length = near) :
    IsOperation p near disp
      (.withTarget mnemonic [] kind (UInt64.ofInt (signExtend (8 * near) (littleEndian disp))))

variable {near : Nat}

/-- Without ModRM everything that is read stands behind it. -/
theorem reads_of_yields {r : ByteReader Operation} (h : r.Yields (IsPlain p [])) :
    r.Reads (IsOperation p near) :=
  h.reads.mono fun behind _ hop => @IsOperation.plain p near [] behind _ hop

/-- A reader that begins with ModRM. -/
theorem reads_of_readModRM {f : ModRM → ByteReader Operation}
    (h : ∀ front m, m.Valid p front → (f m).Yields (IsPlain p front)) :
    (readModRM p >>= f).Reads (IsOperation p near) := by
  refine reads_bind.mpr (reads_readModRM.mono fun front m hm => ?_)
  exact (h front m hm).reads.mono fun behind _ hop => .plain behind hop

theorem yields_withModRM (hm : m.Valid p front) {flow : Flow} (hflow : flow.Targetless)
    (full opcode : Nat) (mnemonic : String) {args : List Argument} (hargs : ∀ a ∈ args, a.Proper) :
    (withModRM p full opcode m mnemonic args flow).Yields (IsPlain p front) :=
  yields_bind.mpr ((yields_readArguments hm full opcode hargs).mono fun _ hos =>
    yields_pure.mpr ⟨hflow, hos⟩)

@[simp] theorem reads_operation {flow : Flow} (hflow : flow.Targetless) (full opcode : Nat)
    (mnemonic : String) {args : List Argument} (hargs : ∀ a ∈ args, a.Proper) :
    (operation p full opcode mnemonic args flow).Reads (IsOperation p near) := by
  unfold operation
  rw [reads_ite]
  -- the arguments that do not need ModRM do not look at it
  refine ⟨fun _ => reads_of_readModRM fun front m hm => ?_, fun _ => reads_of_yields ?_⟩
  · exact yields_withModRM hm hflow _ _ _ hargs
  · exact yields_withModRM ModRM.valid_default hflow _ _ _ hargs

@[simp] theorem yields_bare {flow : Flow} (hflow : flow.Targetless) (mnemonic : String) :
    (bare mnemonic flow).Yields (IsPlain p front) :=
  yields_pure.mpr ⟨hflow, fun _ ho => absurd ho List.not_mem_nil⟩

@[simp] theorem reads_bare {flow : Flow} (hflow : flow.Targetless) (mnemonic : String) :
    (bare mnemonic flow).Reads (IsOperation p near) :=
  reads_of_yields (yields_bare hflow mnemonic)

@[simp] theorem reads_nearJump {kind : UInt64 → Flow} (hkind : Flow.Leads kind)
    (mnemonic : String) : (nearJump mnemonic near kind).Reads (IsOperation p near) := by
  refine reads_bind.mpr ((reads_signed near).mono ?_)
  rintro disp _ ⟨hdisp, rfl⟩
  rw [reads_pure, List.append_nil]
  exact .near mnemonic hkind hdisp

/-! ## The opcode maps -/

theorem reads_arithmetic (opcode : Nat) : (arithmetic p opcode).Reads (IsOperation p near) := by
  refine reads_bind.mpr <| reads_ofOption.mpr fun args hargs => ?_
  simp [reads_operation Flow.targetless_next _ _ _ (proper_arithmeticForms hargs)]

theorem reads_immediateGroup (opcode : Nat) {imm : Argument} (himm : imm.Proper) :
    (immediateGroup p opcode imm).Reads (IsOperation p near) := by
  refine reads_of_readModRM fun front m hm => ?_
  simp [yields_withModRM hm, himm]

theorem reads_shiftGroup (opcode : Nat) {amount : Argument} (hamount : amount.Proper) :
    (shiftGroup p opcode amount).Reads (IsOperation p near) := by
  refine reads_of_readModRM fun front m hm => ?_
  simp [yields_withModRM hm, hamount]

theorem reads_unaryGroup (opcode : Nat) : (unaryGroup p opcode).Reads (IsOperation p near) := by
  refine reads_of_readModRM fun front m hm => ?_
  simp [yields_withModRM hm]

theorem reads_moveGroup (opcode : Nat) : (moveGroup p opcode).Reads (IsOperation p near) := by
  refine reads_of_readModRM fun front m hm => ?_
  simp [yields_withModRM hm]

theorem reads_popGroup (opcode : Nat) : (popGroup p opcode).Reads (IsOperation p near) := by
  refine reads_of_readModRM fun front m hm => ?_
  simp [yields_withModRM hm]

theorem reads_byteStepGroup (opcode : Nat) :
    (byteStepGroup p opcode).Reads (IsOperation p near) := by
  refine reads_of_readModRM fun front m hm => ?_
  split <;> simp [yields_withModRM hm]

theorem yields_farTransfer {m : ModRM} (hm : m.Valid p front) (mnemonic : String) :
    (farTransfer p m mnemonic).Yields (IsPlain p front) := by
  refine yields_bind.mpr (yields_ofOption.mpr fun place hplace => yields_pure.mpr ⟨rfl, ?_⟩)
  simp [IsOperand.memory (hm.isPlace_of_mem hplace)]

theorem reads_placeGroup (opcode : Nat) : (placeGroup p opcode).Reads (IsOperation p near) := by
  refine reads_of_readModRM fun front m hm => ?_
  split <;> simp [yields_withModRM hm, yields_farTransfer hm]

@[simp] theorem reads_stringOperation (opcode : Nat) (stem : String) (compares : Bool) :
    (stringOperation p opcode stem compares).Reads (IsOperation p near) := by
  simp [stringOperation]

theorem reads_exchangeOrNothing : (exchangeOrNothing p).Reads (IsOperation p near) := by
  rw [exchangeOrNothing, reads_ite]
  refine ⟨fun _ => reads_of_yields ⟨rfl, ?_⟩, fun _ => reads_bare Flow.targetless_next _⟩
  simp [IsOperand.general]

theorem reads_rows6 (opcode : Nat) : (rows6 p opcode).Reads (IsOperation p near) := by
  unfold rows6
  split <;> simp

theorem reads_rows8 (opcode : Nat) : (rows8 p opcode).Reads (IsOperation p near) := by
  unfold rows8
  split <;> simp [reads_immediateGroup, reads_popGroup]

theorem reads_rows9 (opcode : Nat) : (rows9 p opcode).Reads (IsOperation p near) := by
  unfold rows9
  split <;> simp [reads_exchangeOrNothing]

theorem reads_rowsA (opcode : Nat) : (rowsA p opcode).Reads (IsOperation p near) := by
  unfold rowsA
  split <;> simp

theorem reads_rowsC (opcode : Nat) : (rowsC p opcode).Reads (IsOperation p near) := by
  unfold rowsC
  split <;> simp [reads_shiftGroup, reads_moveGroup]

theorem reads_rowsD (opcode : Nat) : (rowsD p opcode).Reads (IsOperation p near) := by
  unfold rowsD
  split <;> simp [reads_shiftGroup]

/-- The bytes of the displacement of a jump, branch or call, by its opcode of one byte. -/
def nearBytes (opcode : Nat) : Nat := if opcode = 0xE8 ∨ opcode = 0xE9 then 4 else 1

theorem reads_rowsE (opcode : Nat) :
    (rowsE p opcode).Reads (IsOperation p (nearBytes opcode)) := by
  unfold rowsE
  split <;> simp [nearBytes]

theorem reads_rowsF (opcode : Nat) : (rowsF p opcode).Reads (IsOperation p near) := by
  unfold rowsF
  split <;> simp [reads_unaryGroup, reads_byteStepGroup, reads_placeGroup]

theorem reads_primary (opcode : Nat) :
    (primary p opcode).Reads (IsOperation p (nearBytes opcode)) := by
  have hshort : opcode / 16 = 7 → nearBytes opcode = 1 := fun h => if_neg (by omega)
  unfold primary
  split <;> simp [reads_arithmetic, reads_rows6, reads_rows8, reads_rows9, reads_rowsA,
    reads_rowsC, reads_rowsD, reads_rowsE, reads_rowsF, *]

@[simp] theorem isPlain_ite {c : Prop} [Decidable c] {op op' : Operation} :
    IsPlain p front (if c then op else op')
      ↔ (c → IsPlain p front op) ∧ (¬c → IsPlain p front op') := by
  split <;> simp [*]

@[simp] theorem ModRM.Valid.vectorLoad (hm : m.Valid p front) (mnemonic : String) (size : Nat) :
    IsPlain p front (vectorLoad m mnemonic size) :=
  ⟨rfl, by simp [X86.vectorLoad, hm.vectorReg, hm.vector]⟩

@[simp] theorem ModRM.Valid.vectorStore (hm : m.Valid p front) (mnemonic : String) (size : Nat) :
    IsPlain p front (vectorStore m mnemonic size) :=
  ⟨rfl, by simp [X86.vectorStore, hm.vectorReg, hm.vector]⟩

@[simp] theorem ModRM.Valid.vectorMove (hm : m.Valid p front) (outward : Bool) (mnemonic : String)
    (size : Nat) : IsPlain p front (vectorMove m outward mnemonic size) := by
  simp [X86.vectorMove, hm.vectorLoad, hm.vectorStore]

@[simp] theorem reads_vectorArithmetic (stem : String) :
    (vectorArithmetic p stem).Reads (IsOperation p near) :=
  reads_of_readModRM fun _ _ hm => hm.vectorLoad _ _

@[simp] theorem reads_vectorPacked (stem : String) :
    (vectorPacked p stem).Reads (IsOperation p near) := by
  simp [vectorPacked]

theorem reads_vectorInteger (mnemonic : String) :
    (vectorInteger p mnemonic).Reads (IsOperation p near) := by
  exact reads_guarded <| reads_of_readModRM fun _ _ hm => hm.vectorLoad _ _

theorem isPlain_mk {mnemonic : String} {os : List Operand} (hos : ∀ o ∈ os, IsOperand p front o) :
    IsPlain p front { mnemonic, operands := os } := ⟨rfl, hos⟩

theorem reads_vectorFloat (opcode : Nat) : (vectorFloat p opcode).Reads (IsOperation p near) := by
  unfold vectorFloat
  split <;> try simp only [reads_vectorPacked, reads_vectorArithmetic, reads_undefined]
  -- what is left reads ModRM by itself, most of it behind a guard
  · exact reads_of_readModRM fun _ m hm => hm.vectorMove _ _ _
  · exact reads_of_readModRM fun _ m hm => hm.vectorMove _ _ _
  · exact reads_guarded <| reads_of_readModRM fun _ m hm => hm.vectorMove _ _ _
  · exact reads_guarded <| reads_of_readModRM fun _ m hm => hm.vectorMove _ _ _
  · refine reads_guarded <| reads_of_readModRM fun _ m hm => isPlain_mk ?_
    simp [hm]
  · refine reads_guarded <| reads_of_readModRM fun _ m hm => isPlain_mk ?_
    simp [hm, IsOperand.general _ hm.reg]
  · refine reads_guarded <| reads_of_readModRM fun _ m hm => isPlain_mk ?_
    simp [hm, IsOperand.general _ hm.reg]
  · exact reads_guarded <| reads_of_readModRM fun _ m hm => hm.vectorLoad _ _
  · exact reads_guarded <| reads_of_readModRM fun _ m hm => hm.vectorLoad _ _
  · exact reads_of_readModRM fun _ m hm => hm.vectorLoad _ _

/-- Two vector operands and the order of a shuffle. -/
theorem ModRM.Valid.shuffle (hm : m.Valid p front) (mnemonic : String) :
    (ByteReader.unsigned 1 >>= fun order => pure { mnemonic, operands :=
      [m.vectorReg, m.place.vector 16, .hexImm order 8] }).Yields (IsPlain p front) :=
  yields_bind.mpr <| (yields_unsigned 1).mono fun order horder => by
    have himm : IsOperand p front (.hexImm order 8) := .unsigned 1 (by decide) horder
    exact isPlain_mk (by simp [hm, himm])

theorem reads_vectorOther (opcode : Nat) : (vectorOther p opcode).Reads (IsOperation p near) := by
  unfold vectorOther
  generalize (if p.rexW then "movq" else "movd") = wordMove
  dsimp only
  split
  · refine reads_guarded <| reads_of_readModRM fun _ m hm => isPlain_mk ?_
    simp [hm]
  · refine reads_of_readModRM fun _ m hm => ?_
    split <;> simp [hm, isPlain_mk]
  · exact reads_guarded <| reads_of_readModRM fun _ m hm => hm.vectorMove _ _ _
  · exact reads_guarded <| reads_of_readModRM fun _ m hm => hm.vectorMove _ _ _
  · exact reads_guarded <| reads_of_readModRM fun _ m hm => hm.shuffle _
  · exact reads_guarded <| reads_of_readModRM fun _ m hm => hm.shuffle _
  · exact reads_guarded <| reads_of_readModRM fun _ m hm => hm.vectorStore _ _
  · refine reads_guarded <| reads_of_readModRM fun _ m hm => yields_guarded <| isPlain_mk ?_
    simp [hm, IsOperand.general _ hm.reg]
  · exact reads_bind.mpr <| reads_ofOption.mpr fun name _ => reads_vectorInteger name

theorem reads_tableGroup : (tableGroup p).Reads (IsOperation p near) := by
  refine reads_of_readModRM fun front m hm => ?_
  split
  · simp
  · rename_i place hplace
    refine yields_bind.mpr <| yields_ofOption.mpr fun mnemonic _ => isPlain_mk ?_
    simp [IsOperand.memory (hm.isPlace_of_memory hplace)]

theorem reads_hintGroup (opcode : Nat) : (hintGroup p opcode).Reads (IsOperation p near) := by
  refine reads_of_readModRM fun front m hm => ?_
  split
  · exact isPlain_mk (by simp [hm])
  · exact isPlain_mk (by simp [hm])
  · simp [yields_withModRM hm]
  · exact yields_withModRM hm Flow.targetless_next _ _ _ (by simp)

theorem reads_stateGroup : (stateGroup p).Reads (IsOperation p near) := by
  refine reads_of_readModRM fun front m hm => ?_
  split <;> try simp only [yields_bare Flow.targetless_next, yields_undefined]
  rename_i place digit hplace
  refine yields_bind.mpr <| yields_ofOption.mpr fun mnemonic _ => isPlain_mk ?_
  simp [IsOperand.memory (hm.isPlace_of_memory hplace)]

theorem reads_exchangeGroup : (exchangeGroup p).Reads (IsOperation p near) := by
  refine reads_of_readModRM fun front m hm => ?_
  split
  · exact isPlain_mk (by simp [IsOperand.memory (hm.isPlace_of_memory ‹_›)])
  · exact isPlain_mk (by simp [IsOperand.general _ (hm.lt_of_register ‹_›)])
  · exact isPlain_mk (by simp [IsOperand.general _ (hm.lt_of_register ‹_›)])
  · exact yields_undefined

theorem reads_bitTestGroup (opcode : Nat) : (bitTestGroup p opcode).Reads (IsOperation p near) := by
  refine reads_of_readModRM fun front m hm => ?_
  simp [yields_withModRM hm]

theorem reads_taskGroup (opcode : Nat) : (taskGroup p opcode).Reads (IsOperation p near) := by
  refine reads_of_readModRM fun front m hm => ?_
  simp [yields_withModRM hm]

theorem reads_general (opcode : Nat) : (general p opcode).Reads (IsOperation p near) := by
  unfold general
  generalize (if opcode % 2 = 0 then Width.byte else Width.full) = w
  dsimp only
  split <;> simp [reads_stateGroup, reads_bitTestGroup, reads_exchangeGroup, reads_vectorOther]

theorem targetless_of_bareName {opcode : Nat} {name : String} {flow : Flow}
    (h : bareName opcode = some (name, flow)) : flow.Targetless := by
  unfold bareName at h
  split at h <;> simp only [Option.some.injEq, Prod.mk.injEq, reduceCtorEq] at h
  all_goals
    obtain ⟨-, rfl⟩ := h
    rfl

theorem reads_secondary (opcode : Nat) : (secondary p opcode).Reads (IsOperation p 4) := by
  unfold secondary
  split
  · exact reads_bare (targetless_of_bareName ‹_›) _
  split
  · split <;> simp [reads_taskGroup, reads_tableGroup, reads_hintGroup]
  all_goals simp [reads_vectorFloat, reads_hintGroup, reads_vectorOther, reads_general]

theorem StackForm.isOperand {i : Nat} (hi : i < 8) (form : StackForm) :
    ∀ o ∈ form.operands i, IsOperand p front o := by
  have htop : IsOperand p front (stackReg 0) := .stack (by decide)
  cases form <;> simp [StackForm.operands, htop, IsOperand.stack hi, IsOperand.named]

theorem reads_floatingPoint (opcode : Nat) : (floatingPoint p opcode).Reads (IsOperation p near) := by
  refine reads_of_readModRM fun front m hm => ?_
  dsimp only
  split
  · refine yields_bind.mpr <| yields_ofOption.mpr fun x _ => isPlain_mk ?_
    simp [IsOperand.memory (hm.isPlace_of_memory ‹_›)]
  · refine yields_bind.mpr <| yields_ofOption.mpr fun x _ => isPlain_mk ?_
    exact x.2.isOperand (Nat.mod_lt _ (by decide))

/-- What can be read behind the prefixes: an opcode of one byte or, behind an escape byte, of two,
and what it asks for. -/
inductive IsBody (p : Prefixes) : List UInt8 → Operation → Prop where
  | primary {opcode : UInt8} (hopcode : opcode ≠ 0x0F) {used : List UInt8} {op : Operation}
    (h : IsOperation p (nearBytes opcode.toNat) used op) : IsBody p (opcode :: used) op
  | secondary {opcode : UInt8} {used : List UInt8} {op : Operation}
    (h : IsOperation p 4 used op) : IsBody p (0x0F :: opcode :: used) op

/-- **Whatever follows the prefixes.** -/
theorem reads_body : (body p).Reads (IsBody p) := by
  refine reads_bind.mpr (reads_byte.mpr fun b => ?_)
  rw [reads_ite, reads_ite]
  refine ⟨fun hescape => ?_, fun hopcode => ?_⟩
  · obtain rfl : b = 0x0F := UInt8.toNat_inj.mp hescape
    refine reads_bind.mpr (reads_byte.mpr fun opcode => ?_)
    exact (reads_secondary _).mono fun used op => .secondary
  · have hb : b ≠ 0x0F := fun h => hopcode (congrArg UInt8.toNat h)
    refine ⟨fun _ => ?_, fun _ => ?_⟩
    · exact (reads_floatingPoint _).mono fun used op => .primary hb
    · exact (reads_primary _).mono fun used op => .primary hb

end X86

end Disassembler
