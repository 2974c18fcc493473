import Disassembler.Proofs.Prefixes

/-!
# Encodings delimit themselves

The bytes of a valid instruction say by themselves where it ends. Whatever stands behind them, they
decode to it; and when some of the last of them are missing, what is left is invalid as a whole.
For the machines with words there is nothing to say but that a word has four bytes. On x86-64 the
body of an encoding asks for its bytes one at a time, so the bytes that it takes are those that it
has asked for, and with fewer it asks in vain.
-/

namespace Disassembler

/-! ## What a reader takes -/

namespace ByteReader

variable {α : Type}

/-- The reader asks for the bytes `used`, one after another, and then finishes with `a`. -/
inductive Takes : ByteReader α → List UInt8 → α → Prop where
  | done (a : α) : Takes (.done a) [] a
  | ask {k : UInt8 → ByteReader α} {b : UInt8} {used : List UInt8} {a : α}
    (h : Takes (k b) used a) : Takes (.ask k) (b :: used) a

variable {r : ByteReader α} {used : List UInt8} {a : α}

/-- What is behind the bytes taken is left. -/
theorem Takes.run_append (h : r.Takes used a) (rest : List UInt8) :
    r.run (used ++ rest) = .done a rest := by
  induction h with
  | done a => rfl
  | ask _ ih => exact ih

/-- With fewer bytes the reader asks for one that is not there. -/
theorem Takes.run_take (h : r.Takes used a) {k : Nat} (hk : k < used.length) :
    r.run (used.take k) = .exhausted := by
  induction h generalizing k with
  | done a => exact absurd hk (Nat.not_lt_zero k)
  | ask _ ih =>
    cases k with
    | zero => rfl
    | succ k => exact ih (Nat.lt_of_succ_lt_succ hk)

theorem exists_takes {bs rest : List UInt8} (h : r.run bs = .done a rest) :
    ∃ used, bs = used ++ rest ∧ r.Takes used a := by
  induction r generalizing bs with
  | done a' =>
    obtain ⟨rfl, rfl⟩ := Outcome.done.inj h
    exact ⟨[], rfl, .done a'⟩
  | undefined => exact absurd h (by simp [run])
  | ask k ih =>
    cases bs with
    | nil => exact absurd h (by simp [run])
    | cons b bs =>
      obtain ⟨used, rfl, htakes⟩ := ih b h
      exact ⟨b :: used, rfl, .ask htakes⟩

end ByteReader

/-! ## Decoders whose encodings delimit themselves -/

/-- The bytes of each valid instruction decode to it whatever is behind them, and to an invalid
entry of all that is left when some are missing. -/
def SelfDelimiting (dec : List UInt8 → Instruction) : Prop :=
  ∀ data, (dec data).isInvalid = false →
    (∀ other, other.take (dec data).length = data.take (dec data).length → dec other = dec data)
      ∧ ∀ k, 1 ≤ k → k < (dec data).length →
        (dec (data.take k)).isInvalid = true ∧ (dec (data.take k)).length = k

/-- An invalid entry is as long as it is said to be, if there is as much. -/
theorem Instruction.length_invalid {data : List UInt8} (a : UInt64) {n : Nat} (hpos : 1 ≤ n)
    (hn : n ≤ data.length) (hmax : n ≤ maxBytes) : (invalid data a n).length = n := by
  have hne : data ≠ [] := List.ne_nil_of_length_pos (Nat.lt_of_lt_of_le hpos hn)
  rw [length, invalid_bytes hne, Nat.min_eq_left hmax, Nat.max_eq_right hpos, List.length_take,
    Nat.min_eq_left hn]

namespace ByteOrder

theorem word?_take (order : ByteOrder) (data : List UInt8) :
    order.word? (data.take 4) = order.word? data := by
  rcases data with _ | ⟨b, _ | ⟨c, _ | ⟨d, _ | ⟨e, rest⟩⟩⟩⟩ <;> rfl

theorem word?_eq_none_iff (order : ByteOrder) (data : List UInt8) :
    order.word? data = none ↔ data.length < 4 := by
  rcases data with _ | ⟨b, _ | ⟨c, _ | ⟨d, _ | ⟨e, rest⟩⟩⟩⟩ <;> simp [word?]

end ByteOrder

theorem decodeWord_of_word? {order : ByteOrder} {operation : UInt32 → UInt64 → Option Operation}
    {data : List UInt8} {w : UInt32} (h : order.word? data = some w) (a : UInt64) :
    decodeWord order operation data a
      = { address := a, bytes := data.take 4, operation := operation w a } := by
  simp only [decodeWord, h]

theorem decodeWord_of_length_lt {order : ByteOrder}
    {operation : UInt32 → UInt64 → Option Operation} {data : List UInt8} (h : data.length < 4)
    (a : UInt64) : decodeWord order operation data a = .invalid data a data.length := by
  simp only [decodeWord, (order.word?_eq_none_iff data).mpr h]

theorem decodeWord_selfDelimiting (order : ByteOrder)
    (operation : UInt32 → UInt64 → Option Operation) (a : UInt64) :
    SelfDelimiting (decodeWord order operation · a) := by
  intro data hvalid
  dsimp only at hvalid ⊢
  cases hword : order.word? data with
  | none =>
    have hshort := (order.word?_eq_none_iff data).mp hword
    rw [decodeWord_of_length_lt hshort] at hvalid
    exact absurd hvalid (by simp [Instruction.isInvalid, Instruction.invalid])
  | some w =>
    have hlong : 4 ≤ data.length := Nat.le_of_not_lt fun hlt =>
      absurd ((order.word?_eq_none_iff data).mpr hlt) (by simp [hword])
    have hlength : (decodeWord order operation data a).length = 4 := by
      rw [decodeWord_of_word? hword, Instruction.length, List.length_take, Nat.min_eq_left hlong]
    rw [hlength]
    refine ⟨fun other hother => ?_, fun k hpos hk => ?_⟩
    · have hsame : order.word? other = some w := by
        rw [← order.word?_take, hother, order.word?_take, hword]
      rw [decodeWord_of_word? hword, decodeWord_of_word? hsame, hother]
    · have hk' : (data.take k).length = k := by
        rw [List.length_take]
        omega
      have hmax : k ≤ Instruction.maxBytes := Nat.le_trans (Nat.le_of_lt hk) (by decide)
      rw [decodeWord_of_length_lt (by omega), hk']
      exact ⟨rfl, Instruction.length_invalid a hpos (Nat.le_of_eq hk'.symm) hmax⟩

/-! ## Encodings of x86-64 -/

namespace X86

open Prefixes

/-- Prefixes, and behind them what an operation asks for. The first byte that is asked for is the
opcode, which is no prefix. -/
structure Encodes (ps used : List UInt8) (op : Operation) : Prop where
  prefixes : ∀ b ∈ ps, IsPrefix b
  opcode : ∀ b ∈ used.head?, ¬ IsPrefix b
  takes : (body (summary ps)).Takes used op

variable {ps used : List UInt8} {op : Operation}

theorem scan_append (hps : ∀ b ∈ ps, IsPrefix b) {bs : List UInt8}
    (hbs : ∀ b ∈ bs.head?, ¬ IsPrefix b) : Prefixes.scan {} (ps ++ bs) = (summary ps, bs) := by
  rw [← scan_of_not_isPrefix hbs]
  exact scan_summary hps [] bs

/-- At least an opcode is asked for. -/
theorem Encodes.used_ne_nil (h : Encodes ps used op) : used ≠ [] := by
  rintro rfl
  have hrun := h.takes.run_append []
  rw [List.append_nil, run_body_nil] at hrun
  exact absurd hrun (by simp)

theorem Encodes.scan_eq (h : Encodes ps used op) (rest : List UInt8) :
    Prefixes.scan {} (ps ++ (used ++ rest)) = (summary ps, used ++ rest) := by
  refine scan_append h.prefixes ?_
  have hopcode := h.opcode
  obtain ⟨opcode, args, rfl⟩ := List.exists_cons_of_ne_nil h.used_ne_nil
  exact hopcode

/-- An encoding with anything behind it. -/
theorem Encodes.decode_eq (h : Encodes ps used op) {data rest : List UInt8}
    (hdata : data.take Instruction.maxBytes = ps ++ (used ++ rest)) (a : UInt64) :
    decode data a =
      { address := a, bytes := ps ++ used
        operation := some
          ((withLock (summary ps) op).moveTargets (a + UInt64.ofNat (ps ++ used).length)) } := by
  have hlen : (ps ++ (used ++ rest)).length - rest.length = (ps ++ used).length := by
    rw [← List.append_assoc, List.length_append, Nat.add_sub_cancel]
  have hbytes : (ps ++ (used ++ rest)).take (ps ++ used).length = ps ++ used := by
    rw [← List.append_assoc, List.take_left]
  simp only [decode, hdata, h.scan_eq, h.takes.run_append, hlen, hbytes]

theorem decode_of_exhausted {data bs : List UInt8}
    (hdata : data.take Instruction.maxBytes = ps ++ bs) (hps : ∀ b ∈ ps, IsPrefix b)
    (hbs : ∀ b ∈ bs.head?, ¬ IsPrefix b) (hrun : (body (summary ps)).run bs = .exhausted)
    (a : UInt64) : decode data a = .invalid data a (ps ++ bs).length := by
  simp only [decode, hdata, scan_append hps hbs, hrun]

/-- A valid instruction has an encoding at its front. -/
theorem exists_encodes {data : List UInt8} {a : UInt64}
    (hvalid : (decode data a).isInvalid = false) :
    ∃ ps used rest op, Encodes ps used op
      ∧ data.take Instruction.maxBytes = ps ++ (used ++ rest) := by
  obtain ⟨ps, bs, hdata, hps, hbs⟩ := exists_scan (data.take Instruction.maxBytes)
  simp only [decode, hdata, scan_append hps hbs] at hvalid
  split at hvalid
  · rename_i op rest hrun
    obtain ⟨used, rfl, htakes⟩ := ByteReader.exists_takes hrun
    refine ⟨ps, used, rest, op, ⟨hps, fun b hb => hbs b ?_, htakes⟩, hdata⟩
    rw [List.head?_append, Option.mem_def.mp hb]
    rfl
  · exact absurd hvalid (by simp [Instruction.isInvalid, Instruction.invalid])
  · exact absurd hvalid (by simp [Instruction.isInvalid, Instruction.invalid])

/-- Of an encoding that is cut off, prefixes may be left, or all of them and some of what is asked
for. Either way a byte is asked for that is not there. -/
theorem Encodes.decode_take (h : Encodes ps used op) {k : Nat} (hk : k < (ps ++ used).length)
    (hmax : k ≤ Instruction.maxBytes) (a : UInt64) :
    decode ((ps ++ used).take k) a = .invalid ((ps ++ used).take k) a k := by
  have hlen : ((ps ++ used).take k).length = k := by
    rw [List.length_take, Nat.min_eq_left (Nat.le_of_lt hk)]
  have htake : ((ps ++ used).take k).take Instruction.maxBytes = (ps ++ used).take k :=
    List.take_of_length_le (Nat.le_trans (Nat.le_of_eq hlen) hmax)
  by_cases hprefixes : k ≤ ps.length
  · have hsplit : (ps ++ used).take k = ps.take k ++ [] := by
      rw [List.take_append_of_le_length hprefixes, List.append_nil]
    have hps : ∀ b ∈ ps.take k, IsPrefix b := fun b hb => h.prefixes b (List.mem_of_mem_take hb)
    rw [decode_of_exhausted (htake.trans hsplit) hps (by simp) (run_body_nil _), ← hsplit, hlen]
  · have hsplit : (ps ++ used).take k = ps ++ used.take (k - ps.length) := by
      rw [List.take_append, List.take_of_length_le (Nat.le_of_not_le hprefixes)]
    have hmissing : k - ps.length < used.length := by
      rw [List.length_append] at hk
      omega
    have hopcode : ∀ b ∈ (used.take (k - ps.length)).head?, ¬ IsPrefix b := by
      rw [List.head?_take, if_neg (by omega)]
      exact h.opcode
    rw [decode_of_exhausted (htake.trans hsplit) h.prefixes hopcode (h.takes.run_take hmissing),
      ← hsplit, hlen]

theorem decode_selfDelimiting (a : UInt64) : SelfDelimiting (decode · a) := by
  intro data hvalid
  dsimp only at hvalid ⊢
  obtain ⟨ps, used, rest, op, hencodes, hdata⟩ := exists_encodes hvalid
  rw [← List.append_assoc] at hdata
  have hmax : (ps ++ used).length ≤ Instruction.maxBytes :=
    calc (ps ++ used).length ≤ (data.take Instruction.maxBytes).length := by
          rw [hdata]
          exact (List.sublist_append_left _ _).length_le
      _ ≤ Instruction.maxBytes := List.length_take_le _ _
  have hfront : data.take (ps ++ used).length = ps ++ used := by
    rw [← Nat.min_eq_left hmax, ← List.take_take, hdata, List.take_left]
  have hdecode := hencodes.decode_eq (hdata.trans (List.append_assoc ..)) a
  have hlength : (decode data a).length = (ps ++ used).length := by
    rw [hdecode]
    rfl
  rw [hlength, hfront]
  refine ⟨fun other hother => ?_, fun k hpos hk => ?_⟩
  · have hsplit : other = ps ++ used ++ other.drop (ps ++ used).length :=
      (List.take_append_drop _ other).symm.trans (congrArg (· ++ _) hother)
    have hbehind :=
      calc other.take Instruction.maxBytes
          = (ps ++ used ++ other.drop (ps ++ used).length).take Instruction.maxBytes :=
            congrArg (List.take _) hsplit
        _ = ps ++ (used ++ (other.drop (ps ++ used).length).take
              (Instruction.maxBytes - (ps ++ used).length)) := by
            rw [List.take_append, List.take_of_length_le hmax, List.append_assoc]
    rw [hdecode, hencodes.decode_eq hbehind]
  · have hleft : data.take k = (ps ++ used).take k := by
      rw [← hfront, List.take_take, Nat.min_eq_left (Nat.le_of_lt hk)]
    have hk' : k ≤ Instruction.maxBytes := Nat.le_trans (Nat.le_of_lt hk) hmax
    rw [hleft, hencodes.decode_take hk hk']
    refine ⟨rfl, Instruction.length_invalid a hpos ?_ hk'⟩
    exact Nat.le_of_eq (List.length_take_of_le (Nat.le_of_lt hk)).symm

end X86

/--
**Encodings delimit themselves.**

Let some bytes begin with a valid instruction of `n` bytes, on any machine and at any address. Then
all bytes that agree with them on the first `n` decode to the same instruction, whatever stands
behind. And if less than `n` of them are there, but at least one, they are an invalid entry that is
as long as they are.
-/
theorem encodings_delimit_themselves (m : Machine) (order : ByteOrder) {data : List UInt8}
    (a : UInt64) (hvalid : (decode m order data a).isInvalid = false) :
    let i := decode m order data a
    (∀ other, other.take i.length = data.take i.length → decode m order other a = i)
      ∧ ∀ k, 1 ≤ k → k < i.length →
        (decode m order (data.take k) a).isInvalid = true
          ∧ (decode m order (data.take k) a).length = k := by
  cases m with
  | x86_64 => exact X86.decode_selfDelimiting a data hvalid
  | arm => exact decodeWord_selfDelimiting order Arm.decode a data hvalid
  | aarch64 => exact decodeWord_selfDelimiting order AArch64.decode a data hvalid
  | riscv64 => exact decodeWord_selfDelimiting .little RiscV.decode a data hvalid
  | mips => exact decodeWord_selfDelimiting order Mips.decode a data hvalid

/-- Two prefixes and a comparison of memory with an immediate, in eleven bytes: with other bytes
behind it, and cut off within its displacement. -/
theorem encodings_delimit_themselves_comparison :
    let data : List UInt8 :=
      [0x66, 0x2E, 0x81, 0xBC, 0x58, 0x78, 0x56, 0x34, 0x12, 0xFF, 0x7F, 0x90]
    let i := decode .x86_64 .little data 0x1000
    i.isInvalid = false ∧ i.length = 11
      ∧ decode .x86_64 .little (data.take 11 ++ [0xC3, 0x00]) 0x1000 = i
      ∧ (decode .x86_64 .little (data.take 6) 0x1000).isInvalid = true
      ∧ (decode .x86_64 .little (data.take 6) 0x1000).length = 6 := by
  intro data i
  have hvalid : i.isInvalid = false := by decide +kernel
  have hlength : i.length = 11 := by decide +kernel
  obtain ⟨hbehind, hcut⟩ := encodings_delimit_themselves .x86_64 .little 0x1000 hvalid
  exact ⟨hvalid, hlength, hbehind _ (by rw [hlength]; rfl), hcut 6 (by decide) (hlength ▸ by decide)⟩

end Disassembler
