import Disassembler.Merge
import Disassembler.Proofs.Sections
import Disassembler.Proofs.Rebase.Decode

/-!
# The same image elsewhere

The sections of an image can be moved by one distance, all of them. As long as no section wraps, the
table of sections is the same table, moved, and every address is in the section, at the offset and
in front of the bytes that it was before.
-/

namespace Disassembler

/-! ## Sections -/

namespace Section

/-- The section of the same bytes, moved by a distance. -/
def rebase (d : Int) (s : Section) : Section := { s with start := moveBy s.start d }

/-- The section ends below `2 ^ 64` and can be moved by a distance without wrapping. -/
structure Movable (d : Int) (s : Section) : Prop where
  start_nonneg : 0 ≤ s.start.toNat + d
  fits : s.start.toNat + s.size.toNat < 2 ^ 64
  fits_moved : s.start.toNat + s.size.toNat + d < 2 ^ 64

variable {d : Int} {s t : Section}

theorem rebase_clipped : (s.rebase d).clipped = s.clipped.rebase d := rfl

theorem stop_rebase : (s.rebase d).stop = moveBy s.stop d := (moveBy_add s.start s.size d).symm

theorem Movable.start (h : s.Movable d) : Disassembler.Movable d s.start := by
  have hlo := h.start_nonneg
  have hhi := h.fits_moved
  unfold Disassembler.Movable
  omega

theorem Movable.stop_toNat (h : s.Movable d) : s.stop.toNat = s.start.toNat + s.size.toNat :=
  Fits.stop_toNat h.fits

theorem Movable.stop (h : s.Movable d) : Disassembler.Movable d s.stop := by
  have hlo := h.start_nonneg
  have hhi := h.fits_moved
  have hstop := h.stop_toNat
  unfold Disassembler.Movable
  omega

/-- An address that a section holds can be moved with it. -/
theorem Movable.of_contains (h : s.Movable d) {a : UInt64} (ha : s.contains a = true) :
    Disassembler.Movable d a := by
  simp only [contains, Bool.and_eq_true, decide_eq_true_eq] at ha
  exact h.start.between h.stop ha.1 (UInt64.le_of_lt ha.2)

/-- **A moved section holds what it held before, moved.** -/
theorem Movable.contains_rebase (h : s.Movable d) (a : UInt64) :
    (s.rebase d).contains (moveBy a d) = s.contains a := by
  rw [Bool.eq_iff_iff]
  simp only [contains, stop_rebase, Bool.and_eq_true, decide_eq_true_eq]
  exact h.start.range_iff h.stop

theorem Movable.before_rebase (hs : s.Movable d) (ht : t.Movable d) (h : s.Before t) :
    (s.rebase d).Before (t.rebase d) := by
  have hs : ((s.rebase d).start.toNat : Int) = s.start.toNat + d := hs.start.toNat
  have ht : ((t.rebase d).start.toNat : Int) = t.start.toNat + d := ht.start.toNat
  have hsize : (s.rebase d).size.toNat = s.size.toNat := rfl
  unfold Before at h ⊢
  omega

theorem window_rebase (s : Section) (a : UInt64) (n : Nat) :
    (s.rebase d).window (moveBy a d) n = s.window a n := by
  have hoffset : (s.rebase d).offset (moveBy a d) = s.offset a :=
    congrArg UInt64.toNat (moveBy_sub a s.start d)
  rw [window, window, hoffset]
  rfl

end Section

namespace Image

/-- Keeping the sections that do not overlap, and moving them. -/
theorem keepDisjoint_rebase {d : Int} {kept : Array Section} {ss : List Section}
    (hkept : ∀ s ∈ kept, s.Movable d) (hss : ∀ s ∈ ss, s.Movable d) :
    keepDisjoint (kept.map (·.rebase d)) (ss.map (·.rebase d))
      = (keepDisjoint kept ss).map (·.rebase d) := by
  induction ss generalizing kept with
  | nil => rfl
  | cons s rest ih =>
    have hs := hss s List.mem_cons_self
    have hrest : ∀ t ∈ rest, t.Movable d := fun t ht => hss t (List.mem_cons_of_mem s ht)
    have hoverlap : (kept.map (·.rebase d)).back?.any
          (fun last => decide ((s.rebase d).start < last.stop))
        = kept.back?.any fun last => decide (s.start < last.stop) := by
      rw [Array.back?_map]
      rcases hback : kept.back? with _ | last
      · rfl
      · have hlast := hkept last (Array.mem_of_back? hback)
        simp only [Option.map_some, Option.any_some, Section.stop_rebase]
        exact decide_eq_decide.mpr (hs.start.lt_iff hlast.stop)
    rw [List.map_cons, keepDisjoint, keepDisjoint, hoverlap]
    split
    · exact ih hkept hrest
    · rw [Section.rebase_clipped, ← Array.map_push]
      refine ih (fun t ht => ?_) hrest
      rcases Array.mem_push.mp ht with ht | rfl
      · exact hkept t ht
      · exact ⟨hs.start_nonneg, hs.fits, hs.fits_moved⟩

theorem sectionTable_rebase {d : Int} {sections : List Section}
    (h : ∀ s ∈ sections, s.Movable d) :
    sectionTable (sections.map (·.rebase d)) = (sectionTable sections).map (·.rebase d) := by
  have hsort : (sections.map (·.rebase d)).mergeSort (fun s t => s.start ≤ t.start)
      = (sections.mergeSort fun s t => s.start ≤ t.start).map (·.rebase d) := by
    refine (List.map_mergeSort fun s hs t ht => ?_).symm
    exact decide_eq_decide.mpr ((h s hs).start.le_iff (h t ht).start).symm
  have hempty : ∀ s ∈ (#[] : Array Section), s.Movable d :=
    fun s hs => absurd hs (Array.not_mem_empty s)
  have hkeep := @keepDisjoint_rebase d #[]
    ((sections.mergeSort fun s t => s.start ≤ t.start).filter (·.size ≠ 0)) hempty fun s hs =>
      h s (List.mem_mergeSort.mp (List.mem_filter.mp hs).1)
  rw [Array.map_empty] at hkeep
  rw [sectionTable, hsort, List.filter_map]
  exact hkeep

/-! ## What is where -/

/-- One image holds in its sections what another one holds, a distance further on. -/
structure Rebased (d : Int) (image moved : Image) : Prop where
  order : moved.order = image.order
  entry : moved.entry = moveBy image.entry d
  sections : moved.sections = image.sections.map (·.rebase d)
  movable : ∀ s ∈ image.sections, s.Movable d
  before : image.sections.toList.Pairwise Section.Before

namespace Rebased

variable {d : Int} {image moved : Image}

theorem before_moved (h : Rebased d image moved) :
    moved.sections.toList.Pairwise Section.Before := by
  rw [h.sections, Array.toList_map, List.pairwise_map]
  refine h.before.imp_of_mem fun {s t} hs ht hst => ?_
  exact (h.movable s (Array.mem_toList_iff.mp hs)).before_rebase
    (h.movable t (Array.mem_toList_iff.mp ht)) hst

/-- **The section that holds an address is the same one, moved.** -/
theorem sectionFor (h : Rebased d image moved) (a : UInt64) :
    moved.sectionFor (moveBy a d) = (image.sectionFor a).map (·.rebase d) := by
  apply Option.ext
  intro s
  rw [sectionFor_eq_some_iff h.before_moved, h.sections, Array.mem_map, Option.map_eq_some_iff]
  constructor
  · rintro ⟨⟨t, ht, rfl⟩, hcontains⟩
    rw [(h.movable t ht).contains_rebase] at hcontains
    exact ⟨t, (sectionFor_eq_some_iff h.before).mpr ⟨ht, hcontains⟩, rfl⟩
  · rintro ⟨t, ht, rfl⟩
    obtain ⟨ht, hcontains⟩ := (sectionFor_eq_some_iff h.before).mp ht
    exact ⟨⟨t, ht, rfl⟩, by rw [(h.movable t ht).contains_rebase, hcontains]⟩

theorem inCode (h : Rebased d image moved) (a : UInt64) :
    moved.inCode (moveBy a d) = image.inCode a := by
  rw [Image.inCode, Image.inCode, h.sectionFor, Option.any_map]
  rfl

theorem window (h : Rebased d image moved) (a : UInt64) (n : Nat) :
    moved.window (moveBy a d) n = image.window a n := by
  unfold Image.window
  rw [h.sectionFor]
  rcases image.sectionFor a with _ | s
  · rfl
  · exact s.window_rebase a n

/-- What is decoded at an address is the same instruction, moved. -/
theorem decodeAt (h : Rebased d image moved) {m : Machine} (hm : m.Rebasable d) (a : UInt64) :
    moved.decodeAt m (moveBy a d) = (image.decodeAt m a).rebase d := by
  rw [Image.decodeAt, Image.decodeAt, h.window, h.order, decode_rebase hm]

/-- Addresses in code do not wrap. -/
theorem movable_of_inCode (h : Rebased d image moved) {a : UInt64} (ha : image.inCode a = true) :
    Movable d a := by
  obtain ⟨s, hs, -⟩ := inCode_iff.mp ha
  exact (h.movable s (mem_of_sectionFor hs)).of_contains (contains_of_sectionFor hs)

theorem any_executable (h : Rebased d image moved) :
    moved.sections.any (·.executable) = image.sections.any (·.executable) := by
  rw [h.sections, Array.any_map]
  rfl

end Rebased

end Image

end Disassembler
