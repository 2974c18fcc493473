import Disassembler.Merge
import Disassembler.Proofs.Decode
import Disassembler.Proofs.Search
import Mathlib.Algebra.Group.Nat.Defs

/-!
# The order of confirmed entries

The invariant of a coverage is that its entries lie one behind the other and share no byte. As long
as it holds, the three questions that are asked of a coverage, each answered by halving, say what
they are meant to say of the entries as a set, and an entry that shares no byte with any of them
can be added.
-/

namespace Disassembler

namespace Instruction

/-- The address behind the last byte, as a number that does not wrap. -/
def reach (i : Instruction) : Nat := i.address.toNat + i.length

/-- An entry that has bytes, but not too many, and ends before the end of the address space. -/
structure Placed (i : Instruction) : Prop where
  pos : 0 < i.length
  le_max : i.length ≤ maxBytes
  fits : i.reach < 2 ^ 64

theorem Placed.stop_toNat {i : Instruction} (h : i.Placed) : i.stop.toNat = i.reach := by
  have hfits := h.fits
  simp only [reach] at hfits ⊢
  simp only [stop, UInt64.toNat_add, UInt64.toNat_ofNat']
  omega

theorem Placed.address_lt {i : Instruction} (h : i.Placed) : i.address.toNat < i.reach :=
  Nat.lt_add_of_pos_right h.pos

end Instruction

namespace Coverage

/-- **The invariant of a coverage.** -/
structure Tidy (c : Coverage) : Prop where
  placed : ∀ i ∈ c.entries, i.Placed
  /-- Each entry ends before the next one starts. -/
  apart : c.entries.toList.Pairwise fun i j => i.reach ≤ j.address.toNat

theorem tidy_empty : Tidy {} where
  placed := fun _ h => absurd h (Array.not_mem_empty _)
  apart := List.Pairwise.nil

/-- The addresses ascend. -/
theorem Tidy.ascending {c : Coverage} (h : c.Tidy) :
    c.entries.toList.Pairwise fun i j => i.address < j.address := by
  refine h.apart.imp_of_mem (fun {i j} hi _ hij => ?_)
  have hpos := (h.placed i (Array.mem_toList_iff.mp hi)).address_lt
  exact UInt64.lt_iff_toNat_lt.mpr (by omega)

theorem Tidy.falling_lt {c : Coverage} (h : c.Tidy) (a : UInt64) :
    Search.Falling (fun i : Instruction => i.address < a) c.entries :=
  Search.falling_lt (h.ascending.imp UInt64.le_of_lt)

theorem Tidy.falling_le {c : Coverage} (h : c.Tidy) (a : UInt64) :
    Search.Falling (fun i : Instruction => i.address ≤ a) c.entries :=
  Search.falling_le (h.ascending.imp UInt64.le_of_lt)

/-! ## What the questions mean -/

/-- A start is the address of a confirmed entry. -/
theorem isStart_iff {c : Coverage} (h : c.Tidy) {a : UInt64} :
    c.isStart a = true ↔ ∃ i ∈ c.entries, i.address = a := by
  simp only [← Search.next?_filter_eq_some_iff h.ascending, Option.filter_eq_some_iff]
  exact Option.any_eq_true _ _

/-- An address is inside if a confirmed entry starts before it and ends behind it. -/
theorem inside_iff {c : Coverage} (h : c.Tidy) {a : UInt64} :
    c.inside a = true ↔ ∃ i ∈ c.entries, i.address < a ∧ a.toNat < i.reach := by
  have hstop : ∀ i ∈ c.entries, a < i.stop ↔ a.toNat < i.reach := fun i hi => by
    rw [UInt64.lt_iff_toNat_lt, (h.placed i hi).stop_toNat]
  constructor
  · intro hinside
    obtain ⟨i, hlast, ha⟩ := (Option.any_eq_true _ _).mp hinside
    obtain ⟨hi, hle, -⟩ := Search.last?_eq_some (h.falling_le a) h.ascending hlast
    simp only [Bool.and_eq_true, bne_iff_ne, decide_eq_true_eq] at ha hle
    exact ⟨i, hi, UInt64.lt_of_le_of_ne hle ha.1, (hstop i hi).mp ha.2⟩
  · rintro ⟨i, hi, hlt, hreach⟩
    rcases hlast : Search.last? (fun j : Instruction => j.address ≤ a) c.entries with _ | j
    · have hnone := Search.last?_eq_none (h.falling_le a) hlast i hi
      exact absurd (UInt64.le_of_lt hlt) (of_decide_eq_false hnone)
    · obtain ⟨hj, hle, hbefore⟩ := Search.last?_eq_some (h.falling_le a) h.apart hlast
      refine (Option.any_eq_true _ _).mpr ⟨j, hlast, ?_⟩
      -- an entry behind `i` would start at its end or later, beyond the address
      rcases hbefore i hi (decide_eq_true (UInt64.le_of_lt hlt)) with rfl | hij
      · simp only [Bool.and_eq_true, bne_iff_ne, decide_eq_true_eq]
        exact ⟨UInt64.ne_of_lt hlt, (hstop i hi).mpr hreach⟩
      · have hja := UInt64.le_iff_toNat_le.mp (of_decide_eq_true hle)
        omega

/-- An address is covered if it belongs to a confirmed entry. -/
theorem covers_iff {c : Coverage} (h : c.Tidy) {a : UInt64} :
    c.covers a = true ↔ ∃ i ∈ c.entries, i.address ≤ a ∧ a.toNat < i.reach := by
  rw [covers, Bool.or_eq_true, isStart_iff h, inside_iff h]
  constructor
  · rintro (⟨i, hi, rfl⟩ | ⟨i, hi, hlt, hreach⟩)
    · exact ⟨i, hi, UInt64.le_refl _, (h.placed i hi).address_lt⟩
    · exact ⟨i, hi, UInt64.le_of_lt hlt, hreach⟩
  · rintro ⟨i, hi, hle, hreach⟩
    by_cases heq : i.address = a
    · exact Or.inl ⟨i, hi, heq⟩
    · exact Or.inr ⟨i, hi, UInt64.lt_of_le_of_ne hle heq, hreach⟩

/-- The next start is the least address of a confirmed entry behind an address. -/
theorem nextStart_eq_some {c : Coverage} (h : c.Tidy) {a n : UInt64} (hn : c.nextStart a = some n) :
    (∃ i ∈ c.entries, i.address = n) ∧ a < n ∧ ∀ i ∈ c.entries, a < i.address → n ≤ i.address := by
  obtain ⟨i, hnext, rfl⟩ := Option.map_eq_some_iff.mp hn
  obtain ⟨hi, hlt, hfirst⟩ := Search.next?_eq_some (h.falling_le a) h.ascending hnext
  refine ⟨⟨i, hi, rfl⟩, UInt64.not_le.mp (of_decide_eq_false hlt), ?_⟩
  intro j hj haj
  rcases hfirst j hj (decide_eq_false (UInt64.not_le.mpr haj)) with rfl | hij
  · exact UInt64.le_refl _
  · exact UInt64.le_of_lt hij

/-- Without a next start, no confirmed entry starts behind the address. -/
theorem nextStart_eq_none {c : Coverage} (h : c.Tidy) {a : UInt64} (hn : c.nextStart a = none) :
    ∀ i ∈ c.entries, i.address ≤ a := fun i hi =>
  of_decide_eq_true (Search.next?_eq_none (h.falling_le a) (Option.map_eq_none_iff.mp hn) i hi)

/-! ## Adding an entry -/

theorem mem_insert {c : Coverage} {i j : Instruction} :
    j ∈ (c.insert i).entries ↔ j = i ∨ j ∈ c.entries :=
  Array.mem_insertIdx (h := Search.endOf_le _ _)

/-- Inserting splits a list in two. -/
theorem insertIdx_eq_append {α : Type} (x : α) {l : List α} {k : Nat} (hk : k ≤ l.length) :
    l.insertIdx k x = l.take k ++ x :: l.drop k := by
  induction l generalizing k with
  | nil =>
    obtain rfl : k = 0 := Nat.le_zero.mp hk
    rfl
  | cons y l ih =>
    cases k with
    | zero => rfl
    | succ k => simp [ih (Nat.le_of_succ_le_succ hk)]

/-- No confirmed entry shares a byte with this one. -/
def Clear (c : Coverage) (i : Instruction) : Prop :=
  ∀ j ∈ c.entries, j.reach ≤ i.address.toNat ∨ i.reach ≤ j.address.toNat

/-- **An entry that shares no byte with any other keeps the order.** -/
theorem tidy_insert {c : Coverage} {i : Instruction} (h : c.Tidy) (hi : i.Placed)
    (hclear : c.Clear i) : (c.insert i).Tidy where
  placed := by
    intro j hj
    rcases mem_insert.mp hj with rfl | hj
    · exact hi
    · exact h.placed j hj
  apart := by
    have hsplit := List.take_append_drop (Search.endOf (·.address < i.address) c.entries)
      c.entries.toList
    obtain ⟨hfront, hback, hcross⟩ := List.pairwise_append.mp (hsplit.symm ▸ h.apart)
    rw [insert, Array.toList_insertIdx, insertIdx_eq_append i (Search.endOf_le _ _)]
    refine List.pairwise_append.mpr ⟨hfront, List.pairwise_cons.mpr ⟨?_, hback⟩, ?_⟩
    · -- what starts at the entry or behind it
      intro j hj
      have hmem := Array.mem_toList_iff.mp (List.mem_of_mem_drop hj)
      have hge := of_decide_eq_false (Search.of_mem_drop_endOf (h.falling_lt i.address) hj)
      have hle := UInt64.le_iff_toNat_le.mp (UInt64.not_lt.mp hge)
      have hpos := (h.placed j hmem).address_lt
      rcases hclear j hmem with hbefore | hbehind
      · omega
      · exact hbehind
    · -- what starts before it
      intro j hj k hk
      rcases List.mem_cons.mp hk with rfl | hk
      · have hmem := Array.mem_toList_iff.mp (List.mem_of_mem_take hj)
        have hlt := of_decide_eq_true (Search.of_mem_take_endOf (h.falling_lt k.address) hj)
        have hlt := UInt64.lt_iff_toNat_lt.mp hlt
        have hpos := hi.address_lt
        rcases hclear j hmem with hbefore | hbehind
        · exact hbefore
        · omega
      · exact hcross j hj k hk

end Coverage

end Disassembler
