import Disassembler.Proofs.Decode

/-!
# Prefixes act through their summary

A string of prefixes says whether the size overrides and the lock occur, which repetition and which
segment override comes last, and which REX byte stands at its end. Reading the prefixes one by one
keeps exactly that, whatever is overridden or reset on the way. So two strings of the same length
that say the same can stand for each other: the instruction differs in their own bytes only.
-/

namespace Disassembler

namespace X86

/-! ## Prefix bytes -/

/-- A REX byte. -/
def IsRex (b : UInt8) : Prop := 0x40 ≤ b ∧ b ≤ 0x4F

instance (b : UInt8) : Decidable (IsRex b) := inferInstanceAs (Decidable (_ ∧ _))

/-- The repetition prefixes. -/
def repetitionBytes : List UInt8 := [0xF2, 0xF3]

/-- The segment overrides. -/
def segmentBytes : List UInt8 := [0x2E, 0x36, 0x3E, 0x26, 0x64, 0x65]

/-- A legacy prefix: a size override, the lock, a repetition or a segment override. -/
def IsLegacy (b : UInt8) : Prop :=
  b = 0x66 ∨ b = 0x67 ∨ b = 0xF0 ∨ b ∈ repetitionBytes ∨ b ∈ segmentBytes

instance (b : UInt8) : Decidable (IsLegacy b) :=
  inferInstanceAs (Decidable (_ ∨ _ ∨ _ ∨ b ∈ repetitionBytes ∨ b ∈ segmentBytes))

/-- A prefix byte. -/
def IsPrefix (b : UInt8) : Prop := IsRex b ∨ IsLegacy b

instance (b : UInt8) : Decidable (IsPrefix b) := inferInstanceAs (Decidable (_ ∨ _))

/-- The last byte of a string that is one of those in a table. -/
def lastAmong (table bs : List UInt8) : Option UInt8 := (bs.filter (· ∈ table)).getLast?

@[simp] theorem lastAmong_nil (table : List UInt8) : lastAmong table [] = none := rfl

theorem lastAmong_concat (table bs : List UInt8) (b : UInt8) :
    lastAmong table (bs ++ [b]) = if b ∈ table then some b else lastAmong table bs := by
  by_cases hb : b ∈ table <;> simp [lastAmong, hb]

/-! ## What a string of prefixes says -/

namespace Prefixes

/-- The repetition that a prefix asks for. -/
def repetitionOf : UInt8 → Option Repetition
  | 0xF2 => some .whileNotEqual
  | 0xF3 => some .whileEqual
  | _ => none

/-- What prefixes say, told by those that occur and those that come last. -/
def summary (ps : List UInt8) : Prefixes where
  operandSize := decide (0x66 ∈ ps)
  addressSize := decide (0x67 ∈ ps)
  lock := decide (0xF0 ∈ ps)
  repetition := (lastAmong repetitionBytes ps).bind repetitionOf
  segment := (lastAmong segmentBytes ps).bind segmentName
  rex := ps.getLast?.elim 0 fun b => if IsRex b then b else 0

theorem isLegacy_iff {b : UInt8} : IsLegacy b ↔
    b = 0x66 ∨ b = 0x67 ∨ b = 0xF0 ∨ (b = 0xF2 ∨ b = 0xF3) ∨ b = 0x2E ∨ b = 0x36 ∨ b = 0x3E
      ∨ b = 0x26 ∨ b = 0x64 ∨ b = 0x65 := by
  simp only [IsLegacy, repetitionBytes, segmentBytes, List.mem_cons, List.not_mem_nil, or_false]

theorem not_isRex_of_isLegacy {b : UInt8} (h : IsLegacy b) : ¬ IsRex b := by
  rcases isLegacy_iff.mp h with
    rfl | rfl | rfl | (rfl | rfl) | rfl | rfl | rfl | rfl | rfl | rfl <;> decide

theorem add_of_isRex {b : UInt8} (hb : IsRex b) (p : Prefixes) :
    p.add b = some { p with rex := b } := if_pos hb

theorem add_of_not_isRex {b : UInt8} (hb : ¬ IsRex b) (p : Prefixes) : p.add b = p.addLegacy b :=
  if_neg hb

/-- A REX byte takes its place at the end and says nothing else. -/
theorem summary_concat_of_isRex {b : UInt8} (hb : IsRex b) (ps : List UInt8) :
    summary (ps ++ [b]) = { summary ps with rex := b } := by
  have hother : ∀ c, IsLegacy c → c ≠ b := fun c hc h => not_isRex_of_isLegacy hc (h ▸ hb)
  have hrepetition : b ∉ repetitionBytes := fun h => hother b (.inr (.inr (.inr (.inl h)))) rfl
  have hsegment : b ∉ segmentBytes := fun h => hother b (.inr (.inr (.inr (.inr h)))) rfl
  have h66 : 0x66 ≠ b := hother 0x66 (by decide)
  have h67 : 0x67 ≠ b := hother 0x67 (by decide)
  have hF0 : 0xF0 ≠ b := hother 0xF0 (by decide)
  simp [summary, lastAmong_concat, hrepetition, hsegment, h66, h67, hF0, hb]

/-- **One prefix more.** What has been kept and the prefix tell what the longer string says. -/
theorem add_summary {b : UInt8} (hb : IsPrefix b) (ps : List UInt8) :
    (summary ps).add b = some (summary (ps ++ [b])) := by
  rcases hb with hb | hb
  · rw [add_of_isRex hb, summary_concat_of_isRex hb]
  · -- a legacy prefix sets its own field and takes a REX byte out of force
    have hrex := not_isRex_of_isLegacy hb
    rw [add_of_not_isRex hrex]
    rcases isLegacy_iff.mp hb with
      rfl | rfl | rfl | (rfl | rfl) | rfl | rfl | rfl | rfl | rfl | rfl <;>
      simp [addLegacy, summary, lastAmong_concat, repetitionBytes, segmentBytes, repetitionOf,
        segmentName, hrex]

theorem add_eq_none {b : UInt8} (hb : ¬ IsPrefix b) (p : Prefixes) : p.add b = none := by
  obtain ⟨hrex, hlegacy⟩ := not_or.mp hb
  rw [add_of_not_isRex hrex]
  simp only [isLegacy_iff, not_or] at hlegacy
  obtain ⟨h66, h67, hF0, ⟨hF2, hF3⟩, h2E, h36, h3E, h26, h64, h65⟩ := hlegacy
  simp only [addLegacy, segmentName, Option.map_none]

/-- **A string of prefixes.** -/
theorem scan_summary {ps : List UInt8} (hps : ∀ b ∈ ps, IsPrefix b) (qs bs : List UInt8) :
    (summary qs).scan (ps ++ bs) = (summary (qs ++ ps)).scan bs := by
  induction ps generalizing qs with
  | nil => rw [List.nil_append, List.append_nil]
  | cons b ps ih =>
    have hb := hps b List.mem_cons_self
    rw [List.cons_append, scan, add_summary hb]
    dsimp only
    rw [ih (fun c hc => hps c (List.mem_cons_of_mem b hc)), List.append_assoc]
    rfl

theorem scan_of_not_isPrefix {bs : List UInt8} (h : ∀ b ∈ bs.head?, ¬ IsPrefix b)
    (p : Prefixes) : p.scan bs = (p, bs) := by
  cases bs with
  | nil => rfl
  | cons b bs => rw [scan, add_eq_none (h b rfl)]

/-- Any bytes are a string of prefixes and then bytes that do not begin with one. -/
theorem exists_scan (bs : List UInt8) :
    ∃ ps rest, bs = ps ++ rest ∧ (∀ b ∈ ps, IsPrefix b) ∧ (∀ b ∈ rest.head?, ¬ IsPrefix b) := by
  refine ⟨bs.takeWhile (IsPrefix ·), bs.dropWhile (IsPrefix ·), ?_, fun b hb => ?_, fun b hb => ?_⟩
  · exact List.takeWhile_append_dropWhile.symm
  · exact of_decide_eq_true (List.all_eq_true.mp List.all_takeWhile b hb)
  · have hnot := List.head?_dropWhile_not (IsPrefix ·) bs
    rw [Option.mem_def.mp hb] at hnot
    exact of_decide_eq_false hnot

/-- Two strings of prefixes of the same length that say the same. A REX byte counts at the end
only, so the ends have to agree if one of them is a REX byte. -/
structure SameSummary (ps qs : List UInt8) : Prop where
  length : ps.length = qs.length
  operandSize : 0x66 ∈ ps ↔ 0x66 ∈ qs
  addressSize : 0x67 ∈ ps ↔ 0x67 ∈ qs
  lock : 0xF0 ∈ ps ↔ 0xF0 ∈ qs
  repetition : lastAmong repetitionBytes ps = lastAmong repetitionBytes qs
  segment : lastAmong segmentBytes ps = lastAmong segmentBytes qs
  rex : ∀ b, IsRex b → ps.getLast? = some b ∨ qs.getLast? = some b → ps.getLast? = qs.getLast?

theorem rex_summary_eq_zero {ps : List UInt8} (h : ∀ b, ps.getLast? = some b → ¬ IsRex b) :
    (summary ps).rex = 0 := by
  unfold summary
  cases hend : ps.getLast? with
  | none => rfl
  | some b => exact if_neg (h b hend)

theorem SameSummary.summary_eq {ps qs : List UInt8} (h : SameSummary ps qs) :
    summary ps = summary qs := by
  have hrex : (summary ps).rex = (summary qs).rex := by
    by_cases hend : ∃ b, IsRex b ∧ (ps.getLast? = some b ∨ qs.getLast? = some b)
    · obtain ⟨b, hb, hend⟩ := hend
      simp only [summary, h.rex b hb hend]
    · -- with no REX byte at either end there is none in force
      have hps : (summary ps).rex = 0 := rex_summary_eq_zero fun b hb hrex =>
        hend ⟨b, hrex, .inl hb⟩
      have hqs : (summary qs).rex = 0 := rex_summary_eq_zero fun b hb hrex =>
        hend ⟨b, hrex, .inr hb⟩
      rw [hps, hqs]
  simp only [summary] at hrex
  simp only [summary, h.operandSize, h.addressSize, h.lock, h.repetition, h.segment, hrex]

end Prefixes

end X86

/-! ## Instructions that differ in their first bytes -/

namespace Instruction

/-- Two instructions that may differ in their first `n` bytes, and in nothing else. -/
structure AlikeBehind (n : Nat) (i j : Instruction) : Prop where
  address : i.address = j.address
  length : i.length = j.length
  bytes : i.bytes.drop n = j.bytes.drop n
  operation : i.operation = j.operation

variable {ps qs : List UInt8} {i j : Instruction}

theorem alikeBehind_of_take (hlen : ps.length = qs.length) {bs : List UInt8} {k : Nat}
    (hi : i.bytes = (ps ++ bs).take k) (hj : j.bytes = (qs ++ bs).take k)
    (haddr : i.address = j.address) (hop : i.operation = j.operation) :
    AlikeBehind ps.length i j := by
  refine ⟨haddr, ?_, ?_, hop⟩
  · simp only [Instruction.length, hi, hj, List.length_take, List.length_append, hlen]
  · rw [hi, hj, List.drop_take, List.drop_take, List.drop_left, hlen, List.drop_left]

theorem alikeBehind_invalid (hlen : ps.length = qs.length) (bs : List UInt8) (a : UInt64)
    (k : Nat) : AlikeBehind ps.length (invalid (ps ++ bs) a k) (invalid (qs ++ bs) a k) := by
  by_cases hne : ps ++ bs = []
  · obtain ⟨rfl, rfl⟩ := List.append_eq_nil_iff.mp hne
    obtain rfl : qs = [] := List.length_eq_zero_iff.mp hlen.symm
    exact ⟨rfl, rfl, rfl, rfl⟩
  · have hne' : qs ++ bs ≠ [] := fun hnil => by
      obtain ⟨rfl, rfl⟩ := List.append_eq_nil_iff.mp hnil
      exact hne (by rw [List.length_eq_zero_iff.mp hlen, List.append_nil])
    exact alikeBehind_of_take hlen (invalid_bytes hne a k) (invalid_bytes hne' a k) rfl rfl

end Instruction

namespace X86

open Prefixes

/-- A string of prefixes leaves its summary, and the room that it does not take. -/
theorem scan_front {ps : List UInt8} (hps : ∀ b ∈ ps, IsPrefix b)
    (hshort : ps.length ≤ Instruction.maxBytes) (bs : List UInt8) :
    Prefixes.scan {} ((ps ++ bs).take Instruction.maxBytes)
      = (summary ps).scan (bs.take (Instruction.maxBytes - ps.length)) := by
  rw [List.take_append, List.take_of_length_le hshort]
  exact scan_summary hps [] _

theorem run_body_nil (p : Prefixes) : (body p).run [] = .exhausted := rfl

/-- A string of prefixes that leaves no room for an opcode. -/
theorem decode_of_maxBytes_le {ps : List UInt8} (hps : ∀ b ∈ ps, IsPrefix b)
    (hlong : Instruction.maxBytes ≤ ps.length) (bs : List UInt8) (a : UInt64) :
    decode (ps ++ bs) a = .invalid (ps ++ bs) a Instruction.maxBytes := by
  have hscan : Prefixes.scan {} (ps.take Instruction.maxBytes)
      = (summary (ps.take Instruction.maxBytes), []) := by
    have hfront : ∀ b ∈ ps.take Instruction.maxBytes, IsPrefix b := fun b hb =>
      hps b (List.mem_of_mem_take hb)
    have hall := scan_summary hfront [] []
    rwa [List.append_nil] at hall
  simp only [decode, List.take_append_of_le_length hlong, hscan, run_body_nil, List.length_take,
    Nat.min_eq_left hlong]

/--
**Prefixes act only through their summary.**

Let two strings of legacy prefixes and REX bytes have the same length and say the same: both or
none of them have a `66`, a `67` and an `F0`, the last repetition is the same, the last segment
override is the same, and the last byte is the same if one of the two is a REX byte. Then whatever
follows them, and wherever they stand, both decode to the same instruction or invalid entry, of the
same length, and from the end of the prefixes on with the same bytes.
-/
theorem decode_alike_of_sameSummary (order : ByteOrder) {ps qs : List UInt8}
    (hps : ∀ b ∈ ps, IsPrefix b) (hqs : ∀ b ∈ qs, IsPrefix b) (h : SameSummary ps qs)
    (bs : List UInt8) (a : UInt64) :
    (Disassembler.decode .x86_64 order (ps ++ bs) a).AlikeBehind ps.length
      (Disassembler.decode .x86_64 order (qs ++ bs) a) := by
  simp only [Disassembler.decode]
  by_cases hlong : Instruction.maxBytes ≤ ps.length
  · rw [decode_of_maxBytes_le hps hlong, decode_of_maxBytes_le hqs (h.length ▸ hlong)]
    exact Instruction.alikeBehind_invalid h.length bs a _
  · have hscan := scan_front hps (Nat.le_of_not_le hlong) bs
    have hscan' := scan_front hqs (h.length ▸ Nat.le_of_not_le hlong) bs
    rw [← h.summary_eq, ← h.length] at hscan'
    have hlen : ((ps ++ bs).take Instruction.maxBytes).length
        = ((qs ++ bs).take Instruction.maxBytes).length := by
      rw [List.length_take, List.length_take, List.length_append, List.length_append, h.length]
    -- what is left behind the prefixes is the same, and it is read under the same summary
    simp only [decode, hscan, hscan', hlen]
    rcases (summary ps).scan (bs.take (Instruction.maxBytes - ps.length)) with ⟨p, opcode⟩
    dsimp only
    rcases (body p).run opcode with ⟨op, rest⟩ | rest | _
    · exact Instruction.alikeBehind_of_take h.length List.take_take List.take_take rfl rfl
    · exact Instruction.alikeBehind_invalid h.length bs a _
    · exact Instruction.alikeBehind_invalid h.length bs a _

/-- A `66` before and after, an `F2` that an `F3` overrides, a segment that another overrides, and a
REX byte in the middle that is ignored, before an addition of two vector registers. -/
theorem decode_alike_overridden :
    let ps : List UInt8 := [0x4F, 0x66, 0xF2, 0x2E, 0x64, 0xF3, 0x48]
    let qs : List UInt8 := [0xF3, 0x64, 0x41, 0xF3, 0x66, 0x66, 0x48]
    let bs : List UInt8 := [0x0F, 0x58, 0x47, 0x10]
    SameSummary ps qs ∧ ps ≠ qs
      ∧ (Disassembler.decode .x86_64 .little (ps ++ bs) 0x1000).AlikeBehind 7
        (Disassembler.decode .x86_64 .little (qs ++ bs) 0x1000)
      ∧ (Disassembler.decode .x86_64 .little (ps ++ bs) 0x1000).isInvalid = false := by
  intro ps qs bs
  have hsame : SameSummary ps qs :=
    ⟨rfl, by decide, by decide, by decide, by decide, by decide, fun _ _ _ => rfl⟩
  have hall : ∀ {l : List UInt8}, l.all (IsPrefix ·) = true → ∀ b ∈ l, IsPrefix b :=
    fun h b hb => of_decide_eq_true (List.all_eq_true.mp h b hb)
  have halike := decode_alike_of_sameSummary .little (hall (by decide)) (hall (by decide)) hsame
    bs 0x1000
  exact ⟨hsame, by decide, halike, by decide +kernel⟩

end X86
end Disassembler
