import Disassembler.Proofs.Merge
import Disassembler.Proofs.Rebase.Decode

/-!
# The same coverage elsewhere

Where an entry starts and whether an address is inside one are questions of ranges and equalities,
so they have the same answers for a coverage that is moved, even of an address that wraps. Where the
next entry starts is a question of order, and is asked of addresses in code only. What a merge does
is decided by these questions alone: merging moved entries into a moved coverage moves the result.
-/

namespace Disassembler

namespace Instruction

/-- The entry can be moved by a distance without wrapping, up to the address behind it. -/
structure Movable (d : Int) (i : Instruction) : Prop where
  address_nonneg : 0 ≤ i.address.toNat + d
  reach_lt : i.reach + d < 2 ^ 64

variable {d : Int} {i : Instruction}

theorem stop_rebase (d : Int) (i : Instruction) : (i.rebase d).stop = moveBy i.stop d :=
  (moveBy_add i.address (UInt64.ofNat i.length) d).symm

theorem marker_rebase (d : Int) (i : Instruction) (n : UInt64) :
    (i.rebase d).marker (moveBy n d) = (i.marker n).rebase d := by
  rw [marker, marker, invalid_rebase, show (i.rebase d).address = moveBy i.address d from rfl,
    moveBy_sub]
  rfl

theorem isInvalid_rebase (d : Int) (i : Instruction) : (i.rebase d).isInvalid = i.isInvalid :=
  Option.isNone_map

theorem Movable.address (h : i.Movable d) : Disassembler.Movable d i.address := by
  have hlo := h.address_nonneg
  have hhi := h.reach_lt
  unfold reach at hhi
  unfold Disassembler.Movable
  omega

theorem Movable.stop (h : i.Movable d) (hi : i.Placed) : Disassembler.Movable d i.stop := by
  have hlo := h.address_nonneg
  have hhi := h.reach_lt
  have hstop := hi.stop_toNat
  unfold reach at hstop hhi
  unfold Disassembler.Movable
  omega

theorem Movable.reach_rebase (h : i.Movable d) : ((i.rebase d).reach : Int) = i.reach + d := by
  have haddress : ((i.rebase d).address.toNat : Int) = i.address.toNat + d := h.address.toNat
  have hlength : (i.rebase d).length = i.length := rfl
  unfold reach
  omega

theorem Movable.placed_rebase (h : i.Movable d) (hi : i.Placed) : (i.rebase d).Placed := by
  have hreach := h.reach_rebase
  have hlt := h.reach_lt
  exact ⟨hi.pos, hi.le_max, by omega⟩

end Instruction

namespace Coverage

/-- The coverage of the same entries, moved by a distance. -/
def rebase (d : Int) (c : Coverage) : Coverage := { entries := c.entries.map (·.rebase d) }

/-- Every entry can be moved by a distance without wrapping. -/
def Movable (d : Int) (c : Coverage) : Prop := ∀ i ∈ c.entries, i.Movable d

variable {d : Int} {c : Coverage} {i : Instruction}

theorem Tidy.rebase (h : c.Tidy) (hmovable : c.Movable d) : (c.rebase d).Tidy where
  placed := by
    intro i hi
    obtain ⟨j, hj, rfl⟩ := Array.mem_map.mp hi
    exact (hmovable j hj).placed_rebase (h.placed j hj)
  apart := by
    rw [Coverage.rebase, Array.toList_map, List.pairwise_map]
    refine h.apart.imp_of_mem fun {i j} hi hj hij => ?_
    have hi := (hmovable i (Array.mem_toList_iff.mp hi)).reach_rebase
    have hj : ((j.rebase d).address.toNat : Int) = j.address.toNat + d :=
      (hmovable j (Array.mem_toList_iff.mp hj)).address.toNat
    omega

/-! ## The same answers -/

theorem isStart_rebase (h : c.Tidy) (hmovable : c.Movable d) (a : UInt64) :
    (c.rebase d).isStart (moveBy a d) = c.isStart a := by
  rw [Bool.eq_iff_iff, isStart_iff (h.rebase hmovable), isStart_iff h]
  constructor
  · rintro ⟨j, hj, haddress⟩
    obtain ⟨i, hi, rfl⟩ := Array.mem_map.mp hj
    exact ⟨i, hi, moveBy_inj.mp haddress⟩
  · rintro ⟨i, hi, rfl⟩
    exact ⟨i.rebase d, Array.mem_map_of_mem hi, rfl⟩

/-- Which entry an address is inside of does not change, whether the address wraps or not. -/
theorem inside_rebase (h : c.Tidy) (hmovable : c.Movable d) (a : UInt64) :
    (c.rebase d).inside (moveBy a d) = c.inside a := by
  have hrange : ∀ i ∈ c.entries, (i.rebase d).address < moveBy a d
      ∧ (moveBy a d).toNat < (i.rebase d).reach ↔ i.address < a ∧ a.toNat < i.reach := by
    intro i hi
    have hplaced := h.placed i hi
    have hmoved := (hmovable i hi).placed_rebase hplaced
    rw [← hplaced.stop_toNat, ← hmoved.stop_toNat, Instruction.stop_rebase,
      ← UInt64.lt_iff_toNat_lt, ← UInt64.lt_iff_toNat_lt]
    exact (hmovable i hi).address.inside_iff ((hmovable i hi).stop hplaced)
  rw [Bool.eq_iff_iff, inside_iff (h.rebase hmovable), inside_iff h]
  constructor
  · rintro ⟨j, hj, hin⟩
    obtain ⟨i, hi, rfl⟩ := Array.mem_map.mp hj
    exact ⟨i, hi, (hrange i hi).mp hin⟩
  · rintro ⟨i, hi, hin⟩
    exact ⟨i.rebase d, Array.mem_map_of_mem hi, (hrange i hi).mpr hin⟩

theorem covers_rebase (h : c.Tidy) (hmovable : c.Movable d) (a : UInt64) :
    (c.rebase d).covers (moveBy a d) = c.covers a := by
  rw [covers, covers, isStart_rebase h hmovable, inside_rebase h hmovable]

theorem nextStart_rebase (hmovable : c.Movable d) {a : UInt64} (ha : Disassembler.Movable d a) :
    (c.rebase d).nextStart (moveBy a d) = (c.nextStart a).map (moveBy · d) := by
  have hend : Search.endOf (fun i : Instruction => i.address ≤ moveBy a d) (c.rebase d).entries
      = Search.endOf (fun i : Instruction => i.address ≤ a) c.entries :=
    Search.endOf_map fun i hi => decide_eq_decide.mpr ((hmovable i hi).address.le_iff ha)
  rw [nextStart, nextStart, Search.next?, Search.next?, hend, rebase, Array.getElem?_map,
    Option.map_map, Option.map_map]
  rfl

theorem insert_rebase (hmovable : c.Movable d) (hi : Disassembler.Movable d i.address) :
    (c.rebase d).insert (i.rebase d) = (c.insert i).rebase d := by
  have hend : Search.endOf (fun j : Instruction => j.address < (i.rebase d).address)
        (c.rebase d).entries
      = Search.endOf (fun j : Instruction => j.address < i.address) c.entries :=
    Search.endOf_map fun j hj => decide_eq_decide.mpr ((hmovable j hj).address.lt_iff hi)
  have hlist : ((c.rebase d).insert (i.rebase d)).entries.toList
      = ((c.insert i).rebase d).entries.toList := by
    have hsplit : ((c.insert i).rebase d).entries.toList
        = (c.insert i).entries.toList.map (·.rebase d) := Array.toList_map
    rw [hsplit, insert, insert, Array.toList_insertIdx, Array.toList_insertIdx,
      insertIdx_eq_append _ (Search.endOf_le _ _), insertIdx_eq_append _ (Search.endOf_le _ _),
      hend, rebase, Array.toList_map, List.map_append, List.map_cons, List.map_take, List.map_drop]
  exact congrArg Coverage.mk (Array.toList_inj.mp hlist)

theorem Movable.insert (h : c.Movable d) (hi : i.Movable d) : (c.insert i).Movable d := by
  intro j hj
  rcases mem_insert.mp hj with rfl | hj
  · exact hi
  · exact h j hj

end Coverage

/-! ## Merging -/

/-- What merging has come to, moved by a distance. -/
def Merged.rebase (d : Int) (m : Merged) : Merged :=
  { coverage := m.coverage.rebase d, kept := m.kept.map (·.rebase d), collided := m.collided }

namespace Coverage

variable {d : Int} {c : Coverage} {overlap : Overlap} {entries : List Instruction}

/-- **Merging elsewhere gives the same result, moved.** -/
theorem merge_rebase (h : c.Tidy) (hmovable : c.Movable d) (hplaced : ∀ i ∈ entries, i.Placed)
    (hentries : ∀ i ∈ entries, i.Movable d) :
    (c.rebase d).merge overlap (entries.map (·.rebase d)) = (c.merge overlap entries).rebase d := by
  induction entries generalizing c with
  | nil => rfl
  | cons i rest ih =>
    have hi := hentries i List.mem_cons_self
    have hplacedi := hplaced i List.mem_cons_self
    have hcovers : (c.rebase d).covers (i.rebase d).address = c.covers i.address :=
      covers_rebase h hmovable i.address
    have hnext : ((c.rebase d).nextStart (i.rebase d).address).filter (· < (i.rebase d).stop)
        = ((c.nextStart i.address).filter (· < i.stop)).map (moveBy · d) := by
      rw [show (i.rebase d).address = moveBy i.address d from rfl,
        nextStart_rebase hmovable hi.address, Instruction.stop_rebase]
      rcases hn : c.nextStart i.address with _ | n
      · rfl
      · obtain ⟨⟨j, hj, rfl⟩, -, -⟩ := nextStart_eq_some h hn
        have hlt : decide (moveBy j.address d < moveBy i.stop d) = decide (j.address < i.stop) :=
          decide_eq_decide.mpr ((hmovable j hj).address.lt_iff (hi.stop hplacedi))
        rw [Option.map_some, Option.filter_some, Option.filter_some, hlt]
        split <;> rfl
    -- whichever way the merge goes, it goes the same way elsewhere
    rw [List.map_cons, merge, merge, hcovers, hnext]
    split
    · rfl
    · rename_i hfree
      rcases hstraddled : (c.nextStart i.address).filter (· < i.stop) with _ | n
      · have htidy : (c.insert i).Tidy := by
          have hone : (c.merge overlap [i]).coverage.Tidy := tidy_merge (by simpa using hplacedi) h
          rwa [merge, if_neg hfree, hstraddled] at hone
        have hrest := ih htidy (hmovable.insert hi)
          (fun j hj => hplaced j (List.mem_cons_of_mem i hj))
          (fun j hj => hentries j (List.mem_cons_of_mem i hj))
        rw [Option.map_none]
        dsimp only
        rw [insert_rebase hmovable hi.address, hrest]
        rfl
      · have hmarker : (c.rebase d).insert ((i.rebase d).marker (moveBy n d))
            = (c.insert (i.marker n)).rebase d := by
          rw [Instruction.marker_rebase]
          exact insert_rebase hmovable (i := i.marker n) hi.address
        rw [Option.map_some]
        dsimp only
        rw [hmarker]
        cases overlap <;> rfl

end Coverage

end Disassembler
