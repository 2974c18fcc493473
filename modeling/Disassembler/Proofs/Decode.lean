import Disassembler.Decode

/-!
# What a decoded instruction takes of its bytes

Whatever the machine and whatever the bytes, an instruction or invalid entry is at the address at
hand, and its bytes are a first part of those given: at least one byte, no more than there are and
no more than the longest instruction has. What lies behind the longest entry has no influence.
-/

namespace Disassembler

namespace ByteReader

variable {α β : Type}

/-- A reader that finishes leaves an end of what it was given. -/
theorem suffix_of_run_done {r : ByteReader α} {bs rest : List UInt8} {a : α}
    (h : r.run bs = .done a rest) : rest <:+ bs := by
  induction r generalizing bs with
  | done a' =>
    obtain ⟨-, rfl⟩ := Outcome.done.inj h
    exact List.suffix_refl _
  | undefined => exact absurd h (by simp [run])
  | ask k ih =>
    cases bs with
    | nil => exact absurd h (by simp [run])
    | cons b bs => exact (ih b h).trans (List.suffix_cons b bs)

/-- A reader that begins with a byte and finishes has taken one. -/
theorem length_lt_of_run_byte_done {f : UInt8 → ByteReader β} {bs rest : List UInt8} {a : β}
    (h : (byte >>= f).run bs = .done a rest) : rest.length < bs.length := by
  cases bs with
  | nil => exact absurd h (by simp [byte, Bind.bind, bind, run])
  | cons b bs => exact Nat.lt_succ_of_le (suffix_of_run_done (r := f b) h).length_le

end ByteReader

/-! ## Invalid entries -/

namespace Instruction

/-- An invalid entry of data that is there takes a first part of it. -/
theorem invalid_bytes {data : List UInt8} (h : data ≠ []) (a : UInt64) (n : Nat) :
    (invalid data a n).bytes = data.take (max 1 (min n maxBytes)) := by
  obtain ⟨b, rest, rfl⟩ := List.exists_cons_of_ne_nil h
  have hne : (b :: rest).take (max 1 (min n maxBytes)) ≠ [] := by
    simp only [ne_eq, List.take_eq_nil_iff, not_or]
    exact ⟨by omega, by simp⟩
  simp only [invalid, List.isEmpty_eq_false_iff.mpr hne, Bool.false_eq_true, if_false]

/-- Bytes behind the longest entry have no influence on an invalid one. -/
theorem invalid_take (data : List UInt8) (a : UInt64) (n : Nat) :
    invalid (data.take maxBytes) a n = invalid data a n := by
  have hmin : min (max 1 (min n maxBytes)) maxBytes = max 1 (min n maxBytes) := by
    unfold maxBytes
    omega
  simp only [invalid, List.take_take, hmin]

end Instruction

/-! ## A first part of the bytes -/

/-- The instruction at an address takes a first part of some data, of at most `limit` bytes. -/
structure Instruction.TakesFrom (data : List UInt8) (a : UInt64) (limit : Nat) (i : Instruction) :
    Prop where
  address : i.address = a
  /-- The bytes are those at the front of the data. -/
  bytes : i.bytes = data.take i.length
  pos : 0 < i.length
  /-- No more than there are. -/
  le_length : i.length ≤ data.length
  le_limit : i.length ≤ limit

/-- A first part of a list is as long as it is. -/
theorem eq_take_length {α : Type} {l front : List α} {n : Nat} (h : front = l.take n) :
    front = l.take front.length := by
  rw [h, List.length_take, ← List.take_eq_take_min]

/-- An instruction whose bytes are some of the first of the data takes from it. -/
theorem Instruction.takesFrom_of_bytes {data : List UInt8} {a : UInt64} {limit n : Nat}
    {i : Instruction} (haddr : i.address = a) (hbytes : i.bytes = data.take n) (hne : data ≠ [])
    (hpos : 0 < n) (hn : n ≤ limit) : i.TakesFrom data a limit := by
  have hlen : i.length = min n data.length := by
    rw [Instruction.length, hbytes, List.length_take]
  have hdata : 0 < data.length := List.length_pos_iff.mpr hne
  exact ⟨haddr, eq_take_length hbytes, by omega, by omega, by omega⟩

/-- An invalid entry takes from the data it is made of. -/
theorem Instruction.invalid_takesFrom {data : List UInt8} (hne : data ≠ []) (a : UInt64)
    {n limit : Nat} (hn : n ≤ limit) (hpos : 0 < limit) :
    (Instruction.invalid data a n).TakesFrom data a limit :=
  Instruction.takesFrom_of_bytes rfl (invalid_bytes hne a n) hne (by omega) (by omega)

/-- What follows the prefixes is an end of the bytes. -/
theorem X86.Prefixes.suffix_scan (p : Prefixes) (bs : List UInt8) : (p.scan bs).2 <:+ bs := by
  induction bs generalizing p with
  | nil => exact List.suffix_refl _
  | cons b bs ih =>
    unfold scan
    split
    · exact (ih _).trans (List.suffix_cons b bs)
    · exact List.suffix_refl _

/-- Between one byte and fifteen, however decoding ends. -/
theorem X86.decode_takesFrom {data : List UInt8} (hne : data ≠ []) (a : UInt64) :
    (X86.decode data a).TakesFrom data a Instruction.maxBytes := by
  have hmax : (data.take Instruction.maxBytes).length ≤ Instruction.maxBytes :=
    List.length_take_le _ _
  rcases hscan : Prefixes.scan {} (data.take Instruction.maxBytes) with ⟨p, opcode⟩
  have hopcode : opcode.length ≤ (data.take Instruction.maxBytes).length := by
    have hsuffix := Prefixes.suffix_scan {} (data.take Instruction.maxBytes)
    rw [hscan] at hsuffix
    exact hsuffix.length_le
  simp only [decode, hscan]
  split
  · rename_i op rest hrun
    -- the opcode is at least one byte, so that even without prefixes something is taken
    have hlt := ByteReader.length_lt_of_run_byte_done hrun
    have hbytes : (data.take Instruction.maxBytes).take
        ((data.take Instruction.maxBytes).length - rest.length)
        = data.take ((data.take Instruction.maxBytes).length - rest.length) := by
      rw [List.take_take, Nat.min_eq_left (by omega)]
    exact Instruction.takesFrom_of_bytes rfl hbytes hne (by omega) (by omega)
  · exact Instruction.invalid_takesFrom hne a (by omega) (by decide)
  · exact Instruction.invalid_takesFrom hne a hmax (by decide)

/-- Four bytes, or all of them when there are fewer. -/
theorem decodeWord_takesFrom (order : ByteOrder) (operation : UInt32 → UInt64 → Option Operation)
    {data : List UInt8} (hne : data ≠ []) (a : UInt64) :
    (decodeWord order operation data a).TakesFrom data a 4 := by
  unfold decodeWord
  split
  · exact Instruction.takesFrom_of_bytes rfl rfl hne (by decide) (Nat.le_refl 4)
  · rename_i hword
    refine Instruction.invalid_takesFrom hne a ?_ (by decide)
    -- with four bytes there would be a word
    rcases data with _ | ⟨b, _ | ⟨c, _ | ⟨d, _ | ⟨e, rest⟩⟩⟩⟩
    · exact Nat.zero_le 4
    · exact (by decide : 1 ≤ 4)
    · exact (by decide : 2 ≤ 4)
    · exact (by decide : 3 ≤ 4)
    · exact absurd hword (by simp [ByteOrder.word?])

/-- **Every decoder takes a first part of its bytes.** -/
theorem decode_takesFrom (m : Machine) (order : ByteOrder) {data : List UInt8} (hne : data ≠ [])
    (a : UInt64) : (decode m order data a).TakesFrom data a m.maxLength := by
  cases m with
  | x86_64 => exact X86.decode_takesFrom hne a
  | arm => exact decodeWord_takesFrom order Arm.decode hne a
  | aarch64 => exact decodeWord_takesFrom order AArch64.decode hne a
  | riscv64 => exact decodeWord_takesFrom .little RiscV.decode hne a
  | mips => exact decodeWord_takesFrom order Mips.decode hne a

/-! ## What lies behind -/

theorem X86.decode_take (data : List UInt8) (a : UInt64) :
    X86.decode (data.take Instruction.maxBytes) a = X86.decode data a := by
  unfold decode
  simp only [List.take_take, Nat.min_self, Instruction.invalid_take]

theorem decodeWord_take (order : ByteOrder) (operation : UInt32 → UInt64 → Option Operation)
    (data : List UInt8) (a : UInt64) :
    decodeWord order operation (data.take Instruction.maxBytes) a
      = decodeWord order operation data a := by
  rcases data with _ | ⟨b, _ | ⟨c, _ | ⟨d, _ | ⟨e, rest⟩⟩⟩⟩
  · rfl
  · rfl
  · rfl
  · rfl
  · simp [decodeWord, ByteOrder.word?, Instruction.maxBytes]

/-- Bytes behind the longest entry have no influence. -/
theorem decode_take (m : Machine) (order : ByteOrder) (data : List UInt8) (a : UInt64) :
    decode m order (data.take Instruction.maxBytes) a = decode m order data a := by
  cases m with
  | x86_64 => exact X86.decode_take data a
  | arm => exact decodeWord_take order Arm.decode data a
  | aarch64 => exact decodeWord_take order AArch64.decode data a
  | riscv64 => exact decodeWord_take .little RiscV.decode data a
  | mips => exact decodeWord_take order Mips.decode data a

end Disassembler
