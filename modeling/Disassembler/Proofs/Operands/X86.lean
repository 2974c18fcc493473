import Disassembler.Proofs.Operands.Basic
import Disassembler.Proofs.Relative

/-!
# What encodings of x86-64 show

An operand of a decoded instruction is one that was read behind the prefixes, where an address that
counts from the end is moved there. What was read is known, so what is shown is, too: registers have
names, numbers fit their fields, and a place in memory counts from registers, from the end of the
instruction or from zero.
-/

namespace Disassembler.X86

open Prefixes

variable {p : Prefixes} {front : List UInt8} {i : Instruction} {data : List UInt8} {a : UInt64}

theorem IsOperation.isOperand {near : Nat} {used : List UInt8} {op : Operation}
    (h : IsOperation p near used op) {o : Operand} (ho : o ∈ op.operands) :
    (∃ t, o = .relative t) ∨ ∃ front, IsOperand p front o := by
  cases h with
  | plain _ h => exact .inr ⟨_, h.operands o ho⟩
  | near => exact .inl ⟨_, List.mem_singleton.mp ho⟩

/-- **What is shown was read behind the prefixes**, and is moved to the end of the instruction. -/
theorem exists_isOperand {o : Operand} (ho : o ∈ (decode data a).operands) :
    ∃ ps used o₀, (decode data a).bytes = ps ++ used ∧ (∀ b ∈ ps, IsPrefix b)
      ∧ (∀ b ∈ used.head?, ¬ IsPrefix b) ∧ o = o₀.moveTarget (decode data a).stop
      ∧ ((∃ t, o₀ = .relative t) ∨ ∃ front, IsOperand (summary ps) front o₀) := by
  have hvalid : (decode data a).isInvalid = false := by
    by_contra hinvalid
    have hnone : (decode data a).operation = none := by
      simpa [Instruction.isInvalid] using hinvalid
    rw [Instruction.operands, hnone] at ho
    exact List.not_mem_nil ho
  obtain ⟨ps, used, behind, op, hencodes, hdata⟩ := exists_encodes hvalid
  obtain ⟨opcode, rest, hused, -, hop⟩ :=
    (ByteReader.Reads.of_takes reads_body hencodes.takes).exists_opcode hencodes.opcode
  have hi := hencodes.decode_eq hdata a
  rw [hi] at ho ⊢
  simp only [Instruction.operands, Operation.moveTargets, operands_withLock, List.mem_map] at ho
  obtain ⟨o₀, ho₀, rfl⟩ := ho
  exact ⟨ps, used, o₀, rfl, hencodes.prefixes, hencodes.opcode, rfl, hop.isOperand ho₀⟩

/-! ## Numbers -/

theorem toNat_ofNat_bits {n : Nat} (hn : n ≤ 8) : (UInt8.ofNat (8 * n)).toNat = 8 * n :=
  UInt8.toNat_ofNat_of_lt' (show 8 * n < 256 by omega)

/-- **A number fits its field.** -/
theorem IsOperand.fits {n : ImmediateOperand} (h : IsOperand p front (.immediate n)) : n.Fits := by
  generalize ho : Operand.immediate n = o at h
  cases h with
  | unsigned k hk hv =>
    obtain rfl := Operand.immediate.inj ho
    refine ImmediateOperand.fits_of_lt rfl rfl ?_
    show _ < 2 ^ (UInt8.ofNat (8 * k)).toNat
    rw [toNat_ofNat_bits hk, Nat.pow_mul]
    exact hv
  | signed k hzero hk hv =>
    obtain rfl := Operand.immediate.inj ho
    exact ImmediateOperand.fits_of_signExtend rfl (by omega) (toNat_ofNat_bits hk) rfl
  | one =>
    obtain rfl := Operand.immediate.inj ho
    decide
  | general => exact Operand.noConfusion ho
  | vector => exact Operand.noConfusion ho
  | stack => exact Operand.noConfusion ho
  | named => exact Operand.noConfusion ho
  | place => exact Operand.noConfusion ho
  | absolute => exact Operand.noConfusion ho

theorem fits_decode {n : ImmediateOperand} (h : .immediate n ∈ (decode data a).operands) :
    n.Fits := by
  obtain ⟨ps, used, o₀, -, -, -, hmoved, ⟨t, rfl⟩ | ⟨front, ho₀⟩⟩ := exists_isOperand h
  · exact Operand.noConfusion hmoved
  · cases o₀ with
    | immediate n₀ =>
      obtain rfl := Operand.immediate.inj hmoved
      exact ho₀.fits
    | register r => exact Operand.noConfusion hmoved
    | memory m => exact Operand.noConfusion hmoved
    | relative t => exact Operand.noConfusion hmoved

/-! ## Registers -/

theorem isSome_registerName (bits : Nat) {r : Nat} (hr : r < 16) :
    (p.registerName bits r).isSome := by
  unfold Prefixes.registerName
  split
  · split
    · simp [byteNames, hr]
    · have hlow : r < 8 := by omega
      simp [legacyByteNames, hlow]
  · simp [wordNames, hr]
  · simp [dwordNames, hr]
  · simp [qwordNames, hr]

theorem legible_registerName (bits r : Nat) : Legible (p.registerName bits r) := by
  unfold Prefixes.registerName
  split
  · split
    · exact legible_getElem? (by decide +kernel) r
    · exact legible_getElem? (by decide +kernel) r
  · exact legible_getElem? (by decide +kernel) r
  · exact legible_getElem? (by decide +kernel) r
  · exact legible_getElem? (by decide +kernel) r

/-- **A register has a name.** -/
theorem IsOperand.named_register {r : RegisterOperand} (h : IsOperand p front (.register r)) :
    r.Named := by
  have hplain : ∀ {name : Option String}, name.isSome → Legible name →
      .register r = Operand.reg name → r.Named := by
    rintro name hsome hlegible heq
    obtain rfl := Operand.register.inj heq
    exact ⟨hsome, hlegible, fun _ hs => absurd hs (by simp)⟩
  generalize ho : Operand.register r = o at h
  cases h with
  | general bits hr => exact hplain (isSome_registerName bits hr) (legible_registerName bits _) ho
  | vector hr =>
    exact hplain (by simp [vectorNames, hr]) (legible_getElem? (by decide +kernel) _) ho
  | stack hi =>
    exact hplain (by simp [stackNames, hi]) (legible_getElem? (by decide +kernel) _) ho
  | named hname => exact hplain rfl (legible_some.mpr hname) ho
  | place => exact Operand.noConfusion ho
  | absolute => exact Operand.noConfusion ho
  | unsigned => exact Operand.noConfusion ho
  | signed => exact Operand.noConfusion ho
  | one => exact Operand.noConfusion ho

theorem named_decode {r : RegisterOperand} (h : .register r ∈ (decode data a).operands) :
    r.Named := by
  obtain ⟨ps, used, o₀, -, -, -, hmoved, ⟨t, rfl⟩ | ⟨front, ho₀⟩⟩ := exists_isOperand h
  · exact Operand.noConfusion hmoved
  · cases o₀ with
    | register r₀ =>
      obtain rfl := Operand.register.inj hmoved
      exact ho₀.named_register
    | immediate n => exact Operand.noConfusion hmoved
    | memory m => exact Operand.noConfusion hmoved
    | relative t => exact Operand.noConfusion hmoved

/-! ## Places in memory -/

/-- The bytes of an instruction before its opcode. -/
def prefixesOf (i : Instruction) : List UInt8 := i.bytes.takeWhile (IsPrefix ·)

theorem prefixesOf_eq {ps used : List UInt8} (hbytes : i.bytes = ps ++ used)
    (hps : ∀ b ∈ ps, IsPrefix b) (hused : ∀ b ∈ used.head?, ¬ IsPrefix b) : prefixesOf i = ps := by
  have hall : ∀ b ∈ ps, decide (IsPrefix b) = true := fun b hb => decide_eq_true (hps b hb)
  have hnone : used.takeWhile (IsPrefix ·) = [] := by
    cases used with
    | nil => rfl
    | cons b used => exact List.takeWhile_cons_of_neg (by simpa using hused b rfl)
  rw [prefixesOf, hbytes, List.takeWhile_append_of_pos hall, hnone, List.append_nil]

theorem littleEndian_lt (bs : List UInt8) : littleEndian bs < 256 ^ bs.length := by
  induction bs with
  | nil => exact Nat.one_pos
  | cons b bs ih =>
    have hb : b.toNat < 256 := b.toNat_lt
    rw [littleEndian, List.foldr_cons, ← littleEndian, List.length_cons, Nat.pow_succ]
    omega

/-- Where an instruction that ends at `stop` can say that it accesses memory. -/
inductive IsAccess (p : Prefixes) (stop : UInt64) (m : MemoryOperand) : Prop where
  /-- At what registers hold, with a displacement. Without a base the displacement has four bytes. -/
  | based (hsegment : m.segment = p.segment) (hoffset : m.mode = .offset)
    (hbase : ¬ IsPointer m.base) (hnone : m.pcTarget = none)
    (hwritten : m.base = none → ∃ v < 256 ^ 4, m.displacement = signExtend 32 v)
    (hnames : Legible m.base ∧ Legible m.index)
  /-- At a displacement of four bytes from the end. -/
  | relative (hsegment : m.segment = p.segment) (hoffset : m.mode = .offset)
    (hindex : m.index = none) (hbase : m.base = some p.pointerName)
    (hwritten : ∃ v < 256 ^ 4, m.displacement = signExtend 32 v)
    (htarget : m.pcTarget = some (moveBy stop m.displacement))
  /-- At an address that is written out in as many bytes as addresses have. -/
  | absolute (hsegment : m.segment = p.segment) (hoffset : m.mode = .offset)
    (hbase : m.base = none) (hindex : m.index = none) (hnone : m.pcTarget = none)
    (hwritten : ∃ v < 256 ^ (if p.addressSize then 4 else 8), m.displacement = (v : Nat))

theorem IsAccess.segment_eq {stop : UInt64} {m : MemoryOperand} (h : IsAccess p stop m) :
    m.segment = p.segment := by
  cases h with
  | based hsegment => exact hsegment
  | relative hsegment => exact hsegment
  | absolute hsegment => exact hsegment

/-- A place without a base counts from zero. -/
theorem IsAccess.base_or {stop : UInt64} {m : MemoryOperand} (h : IsAccess p stop m) :
    m.base.isSome ∨ m.pcTarget = none := by
  cases h with
  | based _ _ _ hnone => exact .inr hnone
  | relative _ _ _ hbase => exact .inl (by rw [hbase]; rfl)
  | absolute _ _ _ _ hnone => exact .inr hnone

theorem legible_segment (ps : List UInt8) : Legible (summary ps).segment := by
  intro name hname
  obtain ⟨b, -, hb⟩ := Option.bind_eq_some_iff.mp hname
  unfold segmentName at hb
  split at hb <;> cases hb <;> decide

theorem IsAccess.legible {ps : List UInt8} {stop : UInt64} {m : MemoryOperand}
    (h : IsAccess (summary ps) stop m) : m.Legible := by
  have hsegment : Legible m.segment := h.segment_eq ▸ legible_segment ps
  have hpointer : (summary ps).pointerName ≠ "?" := by
    unfold Prefixes.pointerName
    split <;> decide
  cases h with
  | based _ _ _ _ _ hnames => exact ⟨hnames.1, hnames.2, hsegment⟩
  | relative _ _ hindex hbase =>
    exact ⟨hbase ▸ legible_some.mpr hpointer, hindex ▸ legible_none, hsegment⟩
  | absolute _ _ hbase hindex =>
    exact ⟨hbase ▸ legible_none, hindex ▸ legible_none, hsegment⟩

theorem IsPlace.isAccess {m : MemoryOperand} (h : IsPlace p front m) (stop : UInt64) :
    IsAccess p stop { m with pcTarget := m.pcTarget.map (· + stop) } := by
  cases h with
  | based hsegment hoffset hbase hnone hwritten hnames =>
    exact .based hsegment hoffset hbase (by simp [hnone]) hwritten hnames
  | @relative _ disp _ _ hdisp _ hsegment hoffset hindex hbase hdisplacement htarget =>
    have hlt : littleEndian disp < 256 ^ 4 := hdisp ▸ littleEndian_lt disp
    refine .relative hsegment hoffset hindex hbase ⟨_, hlt, hdisplacement⟩ ?_
    rw [htarget, Option.map_some, moveBy_eq_add]

theorem IsOperand.isAccess {m : MemoryOperand} (h : IsOperand p front (.memory m))
    (stop : UInt64) : IsAccess p stop { m with pcTarget := m.pcTarget.map (· + stop) } := by
  generalize ho : Operand.memory m = o at h
  cases h with
  | place hplace =>
    obtain rfl := Operand.memory.inj ho
    exact hplace.isAccess stop
  | absolute n hn hv size =>
    obtain rfl := Operand.memory.inj ho
    exact .absolute rfl rfl rfl rfl rfl ⟨_, hn ▸ hv, rfl⟩
  | general => exact Operand.noConfusion ho
  | vector => exact Operand.noConfusion ho
  | stack => exact Operand.noConfusion ho
  | named => exact Operand.noConfusion ho
  | unsigned => exact Operand.noConfusion ho
  | signed => exact Operand.noConfusion ho
  | one => exact Operand.noConfusion ho

/-- **A place in memory that an instruction shows.** -/
theorem isAccess_of_mem {m : MemoryOperand} (h : .memory m ∈ (decode data a).operands) :
    IsAccess (summary (prefixesOf (decode data a))) (decode data a).stop m := by
  obtain ⟨ps, used, o₀, hbytes, hps, hused, hmoved, hread⟩ := exists_isOperand h
  rw [prefixesOf_eq hbytes hps hused]
  obtain ⟨m₀, rfl, rfl⟩ := exists_memory_of_moveTarget hmoved.symm
  rcases hread with ⟨t, ht⟩ | ⟨front, hread⟩
  · exact Operand.noConfusion ht
  · exact hread.isAccess _

end Disassembler.X86
