import Disassembler.Proofs.Decode

/-!
# What linear disassembly covers

Every entry takes at least one byte of those that are left, so cutting a list of bytes from its
front comes to its end, and nothing is left out or shown twice. The place of an entry is the number
of bytes before it. So the whole disassembly is told by one equation for each place: as long as
bytes are left there, the entry is what they decode to.
-/

namespace Disassembler

/-! ## The contract of a decoder -/

/-- A word takes four bytes, or all of them when there are fewer. -/
theorem length_decodeWord (order : ByteOrder) (operation : UInt32 → UInt64 → Option Operation)
    {data : List UInt8} (hne : data ≠ []) (a : UInt64) :
    (decodeWord order operation data a).length = min 4 data.length := by
  unfold decodeWord
  split
  · simp only [Instruction.length, List.length_take]
  · rename_i hword
    have hpos : 0 < data.length := List.length_pos_iff.mpr hne
    have hshort : data.length < 4 := by
      rcases data with _ | ⟨b, _ | ⟨c, _ | ⟨d, _ | ⟨e, rest⟩⟩⟩⟩
      · decide
      · exact (by decide : 1 < 4)
      · exact (by decide : 2 < 4)
      · exact (by decide : 3 < 4)
      · exact absurd hword (by simp [ByteOrder.word?])
    rw [Instruction.length, Instruction.invalid_bytes hne, List.length_take]
    unfold Instruction.maxBytes
    omega

/-- All machines but one have words. -/
theorem length_decode_of_ne {m : Machine} (hm : m ≠ .x86_64) (order : ByteOrder)
    {data : List UInt8} (hne : data ≠ []) (a : UInt64) :
    (decode m order data a).length = min 4 data.length := by
  cases m with
  | x86_64 => exact absurd rfl hm
  | arm => exact length_decodeWord order Arm.decode hne a
  | aarch64 => exact length_decodeWord order AArch64.decode hne a
  | riscv64 => exact length_decodeWord .little RiscV.decode hne a
  | mips => exact length_decodeWord order Mips.decode hne a

namespace Instruction

/-- The bytes of an entry in a field that has room for the longest: zeros stand behind them. -/
def field (i : Instruction) : List UInt8 := i.bytes ++ List.replicate (maxBytes - i.length) 0

theorem length_field {i : Instruction} (h : i.length ≤ maxBytes) : i.field.length = maxBytes := by
  rw [field, List.length_append, List.length_replicate]
  exact Nat.add_sub_of_le h

theorem getElem?_field_of_lt {i : Instruction} {k : Nat} (h : k < i.length) :
    i.field[k]? = i.bytes[k]? := List.getElem?_append_left h

theorem getElem?_field_of_le {i : Instruction} {k : Nat} (h : i.length ≤ k) (hk : k < maxBytes) :
    i.field[k]? = some 0 := by
  have hlen : i.bytes.length ≤ k := h
  have hzeros : k - i.bytes.length < maxBytes - i.length := Nat.sub_lt_sub_right hlen hk
  rw [field, List.getElem?_append_right hlen, List.getElem?_replicate, if_pos hzeros]

/-- An entry without an operation says nothing but its bytes. -/
theorem silent_of_isInvalid {i : Instruction} (h : i.isInvalid = true) :
    i.mnemonic = "??" ∧ i.operands = [] ∧ i.flow = .next ∧ i.flow.target? = none := by
  have hnone : i.operation = none := Option.isNone_iff_eq_none.mp h
  have hflow : i.flow = .next := by rw [flow, hnone]
  exact ⟨by rw [mnemonic, hnone], by rw [operands, hnone], hflow, by rw [hflow]; rfl⟩

end Instruction

theorem Machine.maxLength_le (m : Machine) : m.maxLength ≤ Instruction.maxBytes := by
  cases m <;> decide

/--
**The contract of every decoder.**

Whatever the machine, the byte order, the bytes and the address: the entry is at the address, has at
least one byte, no more than the machine's longest instruction and no more than there are. On the
machines whose encodings are words it has four bytes if there are four. Its bytes are the first of
those given, and zeros follow them in a field of fixed size. An invalid entry shows two question
marks, has no operands, and leads nowhere.
-/
theorem decode_contract (m : Machine) (order : ByteOrder) {data : List UInt8} (hne : data ≠ [])
    (a : UInt64) :
    let i := decode m order data a
    i.address = a
      ∧ 1 ≤ i.length ∧ i.length ≤ m.maxLength ∧ i.length ≤ data.length
      ∧ (m ≠ .x86_64 → i.length = min 4 data.length)
      ∧ i.bytes = data.take i.length
      ∧ i.field.length = Instruction.maxBytes
      ∧ (∀ k, k < i.length → i.field[k]? = data[k]?)
      ∧ (∀ k, i.length ≤ k → k < Instruction.maxBytes → i.field[k]? = some 0)
      ∧ (i.isInvalid = true → i.mnemonic = "??" ∧ i.operands = [] ∧ i.flow = .next
        ∧ i.flow.target? = none) := by
  intro i
  have htakes : i.TakesFrom data a m.maxLength := decode_takesFrom m order hne a
  have hmax : i.length ≤ Instruction.maxBytes := Nat.le_trans htakes.le_limit m.maxLength_le
  refine ⟨htakes.address, htakes.pos, htakes.le_limit, htakes.le_length,
    fun hm => length_decode_of_ne hm order hne a, htakes.bytes, Instruction.length_field hmax,
    fun k hk => ?_, fun k hk hlt => Instruction.getElem?_field_of_le hk hlt,
    Instruction.silent_of_isInvalid⟩
  rw [Instruction.getElem?_field_of_lt hk, htakes.bytes, List.getElem?_take_of_lt hk]

/-- Sixteen prefixes in a row are more than any instruction has. -/
theorem decode_contract_prefixes :
    let i := decode .x86_64 .little (List.replicate 16 0x66) 0x1000
    i.isInvalid = true ∧ i.length = 15 ∧ i.address = 0x1000
      ∧ i.field = List.replicate 15 0x66 ∧ i.mnemonic = "??" ∧ i.operands = [] := by
  have hne : List.replicate 16 (0x66 : UInt8) ≠ [] := by decide
  obtain ⟨haddr, -, -, -, -, -, -, -, -, hsilent⟩ :=
    decode_contract .x86_64 .little hne 0x1000
  have hinvalid : (decode .x86_64 .little (List.replicate 16 0x66) 0x1000).isInvalid = true := by
    decide +kernel
  exact ⟨hinvalid, by decide +kernel, haddr, by decide +kernel, (hsilent hinvalid).1,
    (hsilent hinvalid).2.1⟩

/-! ## From the start to the end -/

variable {m : Machine} {order : ByteOrder}

/-- The number of bytes that entries take together. -/
def Instruction.totalLength (entries : List Instruction) : Nat :=
  (entries.map Instruction.length).foldr (· + ·) 0

@[simp] theorem Instruction.totalLength_nil : Instruction.totalLength [] = 0 := rfl

@[simp] theorem Instruction.totalLength_cons (i : Instruction) (rest : List Instruction) :
    Instruction.totalLength (i :: rest) = i.length + Instruction.totalLength rest := rfl

@[simp] theorem disassemble_nil (a : UInt64) : disassemble m order [] a = [] := by
  rw [disassemble]

/-- The first entry, and then the disassembly of the bytes behind it. -/
theorem disassemble_of_ne_nil {data : List UInt8} (hne : data ≠ []) (a : UInt64) :
    disassemble m order data a = decode m order data a
      :: disassemble m order (data.drop (decode m order data a).length)
        (a + UInt64.ofNat (decode m order data a).length) := by
  have htakes := decode_takesFrom m order hne a
  have hstop : (decode m order data a).stop
      = a + UInt64.ofNat (decode m order data a).length := by
    rw [Instruction.stop, htakes.address]
  obtain ⟨b, rest, rfl⟩ := List.exists_cons_of_ne_nil hne
  -- an entry has a byte, so that dropping it drops the first byte
  obtain ⟨n, hn⟩ := Nat.exists_eq_succ_of_ne_zero (Nat.ne_of_gt htakes.pos)
  rw [disassemble]
  simp only [hstop, hn, Nat.succ_eq_add_one, Nat.add_sub_cancel, List.drop_succ_cons]

/-- What the bytes from a place on decode to, if there are any. -/
def entryAt (m : Machine) (order : ByteOrder) (data : List UInt8) (a : UInt64) (place : Nat) :
    Option Instruction :=
  if place < data.length then
    some (decode m order (data.drop place) (a + UInt64.ofNat place))
  else none

/-- Places count on behind bytes that are cut off. -/
theorem entryAt_drop (data : List UInt8) (a : UInt64) (n place : Nat) :
    entryAt m order (data.drop n) (a + UInt64.ofNat n) place
      = entryAt m order data a (n + place) := by
  have hlt : place < (data.drop n).length ↔ n + place < data.length := by
    rw [List.length_drop]
    omega
  simp only [entryAt, hlt, List.drop_drop, UInt64.add_assoc, ← UInt64.ofNat_add]

theorem takesFrom_of_entryAt {data : List UInt8} {a : UInt64} {place : Nat} {i : Instruction}
    (h : entryAt m order data a place = some i) :
    i.TakesFrom (data.drop place) (a + UInt64.ofNat place) m.maxLength := by
  unfold entryAt at h
  split at h
  · rename_i hlt
    obtain rfl := Option.some.inj h
    have hne : data.drop place ≠ [] := fun hnil =>
      absurd (List.drop_eq_nil_iff.mp hnil) (Nat.not_le_of_lt hlt)
    exact decode_takesFrom m order hne _
  · exact absurd h (by simp)

/-- **Each place has its entry as long as bytes are left there.** -/
theorem getElem?_disassemble (data : List UInt8) (a : UInt64) (k : Nat) :
    (disassemble m order data a)[k]? =
      entryAt m order data a (Instruction.totalLength ((disassemble m order data a).take k)) := by
  induction k generalizing data a with
  | zero =>
    rcases Decidable.em (data = []) with rfl | hne
    · simp [entryAt]
    · have hpos : 0 < data.length := List.length_pos_iff.mpr hne
      simp [disassemble_of_ne_nil hne, entryAt, hpos]
  | succ k ih =>
    rcases Decidable.em (data = []) with rfl | hne
    · simp [entryAt]
    · rw [disassemble_of_ne_nil hne, List.getElem?_cons_succ, List.take_succ_cons,
        Instruction.totalLength_cons, ← entryAt_drop, ← ih]

/-- The bytes of all entries are those that were given. -/
theorem flatMap_bytes_disassemble (data : List UInt8) (a : UInt64) :
    (disassemble m order data a).flatMap (·.bytes) = data := by
  induction hlen : data.length using Nat.strongRecOn generalizing data a with
  | ind n ih =>
  subst hlen
  rcases Decidable.em (data = []) with rfl | hne
  · simp
  have htakes := decode_takesFrom m order hne a
  have hshort : (data.drop (decode m order data a).length).length < data.length := by
    have hpos := htakes.pos
    have hle := htakes.le_length
    rw [List.length_drop]
    omega
  calc (disassemble m order data a).flatMap (·.bytes)
      = (decode m order data a).bytes
          ++ data.drop (decode m order data a).length := by
        rw [disassemble_of_ne_nil hne, List.flatMap_cons, ih _ hshort _ _ rfl]
    _ = data.take (decode m order data a).length
          ++ data.drop (decode m order data a).length := by rw [← htakes.bytes]
    _ = data := List.take_append_drop _ _

/-- Entries that have bytes are no more than their bytes. -/
theorem length_le_totalLength {entries : List Instruction} (h : ∀ i ∈ entries, 1 ≤ i.length) :
    entries.length ≤ Instruction.totalLength entries := by
  induction entries with
  | nil => exact Nat.le_refl 0
  | cons i rest ih =>
    have hi := h i List.mem_cons_self
    have hrest := ih fun j hj => h j (List.mem_cons_of_mem i hj)
    simp only [List.length_cons, Instruction.totalLength_cons]
    omega

theorem totalLength_eq_length_flatMap (entries : List Instruction) :
    Instruction.totalLength entries = (entries.flatMap (·.bytes)).length := by
  induction entries with
  | nil => rfl
  | cons i rest ih =>
    rw [Instruction.totalLength_cons, List.flatMap_cons, List.length_append, ih]
    rfl

/--
**Linear disassembly loses and repeats no byte.**

It comes to an end after no more entries than there are bytes. The bytes of the entries, one after
another, are those that were given. An entry is at the base address and as many bytes behind it as
the entries before it have, and it is what the bytes from there on decode to; there is one as long
as bytes are left.
-/
theorem disassemble_exact (m : Machine) (order : ByteOrder) (data : List UInt8) (a : UInt64) :
    let entries := disassemble m order data a
    entries.length ≤ data.length
      ∧ entries.flatMap (fun i => i.bytes.take i.length) = data
      ∧ (∀ k i, entries[k]? = some i →
        i.address = a + UInt64.ofNat (Instruction.totalLength (entries.take k)))
      ∧ ∀ k, entries[k]? = entryAt m order data a (Instruction.totalLength (entries.take k)) := by
  intro entries
  have hplaces : ∀ k,
      entries[k]? = entryAt m order data a (Instruction.totalLength (entries.take k)) :=
    getElem?_disassemble data a
  have hbytes : entries.flatMap (·.bytes) = data := flatMap_bytes_disassemble data a
  refine ⟨?_, ?_, fun k i hk => ?_, hplaces⟩
  · have hpos : ∀ i ∈ entries, 1 ≤ i.length := by
      intro i hi
      obtain ⟨k, hk⟩ := List.mem_iff_getElem?.mp hi
      exact (takesFrom_of_entryAt ((hplaces k).symm.trans hk)).pos
    calc entries.length ≤ Instruction.totalLength entries := length_le_totalLength hpos
      _ = data.length := by rw [totalLength_eq_length_flatMap, hbytes]
  · simpa only [Instruction.length, List.take_length] using hbytes
  · exact (takesFrom_of_entryAt ((hplaces k).symm.trans hk)).address

end Disassembler
