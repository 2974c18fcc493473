import Disassembler.Proofs.Sections

/-!
# Sections as intervals

A section is an interval of numbers, from its start up to start plus size. An image keeps sections
that have no address in common, gives up only what overlaps one that it keeps, and finds for each
address the section that holds it. The end of a section is computed modulo `2 ^ 64`, so all of this
is true of sections that end below `2 ^ 64`. One that reaches up to `2 ^ 64` ends at zero: nothing
is found in it, and what starts inside it is kept beside it. It does no other harm, so the sections
are a partition of the addresses that they hold if and only if no such section is kept.
-/

namespace Disassembler

namespace Section

/-- The section ends at `2 ^ 64` or below: it fits the address space. -/
def Within (s : Section) : Prop := s.start.toNat + s.size.toNat ≤ UInt64.size

/-- The address is in the section, in numbers that do not wrap. -/
def Covers (s : Section) (a : UInt64) : Prop :=
  s.start.toNat ≤ a.toNat ∧ a.toNat - s.start.toNat < s.size.toNat

/-- Two sections have an address in common. -/
def Overlaps (s t : Section) : Prop := ∃ a, s.Covers a ∧ t.Covers a

instance (s : Section) : Decidable s.Within := inferInstanceAs (Decidable (_ ≤ _))

instance (s : Section) : Decidable s.Fits := inferInstanceAs (Decidable (_ < _))

instance (s : Section) (a : UInt64) : Decidable (s.Covers a) := inferInstanceAs (Decidable (_ ∧ _))

theorem Fits.within {s : Section} (h : s.Fits) : s.Within := Nat.le_of_lt h

theorem Fits.contains_iff_covers {s : Section} (h : s.Fits) {a : UInt64} :
    s.contains a = true ↔ s.Covers a := by
  rw [h.contains_iff, Covers]
  omega

/-- A section holds what it covers if it ends below `2 ^ 64`, and nothing otherwise. -/
theorem contains_iff_covers {s : Section} {a : UInt64} :
    s.contains a = true ↔ s.Fits ∧ s.Covers a :=
  ⟨fun h => ⟨fits_of_contains h, (fits_of_contains h).contains_iff_covers.mp h⟩,
    fun h => h.1.contains_iff_covers.mpr h.2⟩

/-- A section that is not empty covers its start. -/
theorem covers_start {s : Section} (h : s.size ≠ 0) : s.Covers s.start := by
  have hpos : 0 < s.size.toNat := Nat.pos_of_ne_zero fun hzero => h (UInt64.toNat_inj.mp hzero)
  exact ⟨Nat.le_refl _, by omega⟩

/-- A section that ends before another one starts has nothing in common with it. -/
theorem Before.not_overlaps {s t : Section} (h : s.Before t) : ¬ s.Overlaps t := by
  rintro ⟨a, hs, ht⟩
  have h : s.start.toNat + s.size.toNat ≤ t.start.toNat := h
  simp only [Covers] at hs ht
  omega

/-- What starts before the end of a section that starts no later starts inside it. A section that
reaches up to `2 ^ 64` has no end before which anything could start. -/
theorem overlaps_of_lt_stop {s t : Section} (ht : t.Within) (hstart : t.start ≤ s.start)
    (hstop : s.start < t.stop) (hsize : s.size ≠ 0) : s.Overlaps t := by
  have hfits : t.Fits := by
    refine Nat.lt_of_le_of_ne ht fun htop => ?_
    have hzero : t.stop.toNat = 0 := by rw [stop, UInt64.toNat_add, htop]; rfl
    have hlt := UInt64.lt_iff_toNat_lt.mp hstop
    omega
  have hle := UInt64.le_iff_toNat_le.mp hstart
  have hlt := UInt64.lt_iff_toNat_lt.mp hstop
  rw [hfits.stop_toNat] at hlt
  exact ⟨s.start, covers_start hsize, hle, by omega⟩

end Section

/-! ## What is given up -/

namespace Image

/-- **Each section is kept or overlaps one that is**, if the sections come by start. -/
theorem exists_dropped_keepDisjoint {kept : Array Section} {ss : List Section}
    (hwithin : ∀ s ∈ kept, s.Within) (hss : ∀ s ∈ ss, s.Within ∧ s.size ≠ 0)
    (hkept : ∀ s ∈ kept, ∀ t ∈ ss, s.start ≤ t.start)
    (hsorted : ss.Pairwise fun s t => s.start ≤ t.start) :
    ∃ dropped : List Section,
      ((keepDisjoint kept ss).toList ++ dropped).Perm (kept.toList ++ ss.map Section.clipped)
        ∧ ∀ s ∈ dropped, ∃ t ∈ keepDisjoint kept ss, s.Overlaps t := by
  induction ss generalizing kept with
  | nil => exact ⟨[], by simp [keepDisjoint], by simp⟩
  | cons t rest ih =>
    obtain ⟨hfirst, hrest⟩ := List.pairwise_cons.mp hsorted
    obtain ⟨htwithin, htsize⟩ := hss t List.mem_cons_self
    have hss' : ∀ s ∈ rest, s.Within ∧ s.size ≠ 0 := fun s hs => hss s (List.mem_cons_of_mem t hs)
    unfold keepDisjoint
    split
    · rename_i hinside
      obtain ⟨last, hlast, hlt⟩ := (Option.any_eq_true _ _).mp hinside
      have hmem : last ∈ kept := Array.mem_of_back? hlast
      have hoverlaps : t.clipped.Overlaps last :=
        Section.overlaps_of_lt_stop (hwithin last hmem) (hkept last hmem t List.mem_cons_self)
          (of_decide_eq_true hlt) htsize
      obtain ⟨dropped, hperm, hdropped⟩ := ih hwithin hss'
        (fun s hs u hu => hkept s hs u (List.mem_cons_of_mem t hu)) hrest
      refine ⟨t.clipped :: dropped, ?_, fun s hs => ?_⟩
      · exact List.perm_middle.trans ((hperm.cons _).trans List.perm_middle.symm)
      · rcases List.mem_cons.mp hs with rfl | hs
        · exact ⟨last, mem_keepDisjoint_of_mem hmem, hoverlaps⟩
        · exact hdropped s hs
    · have hpush : ∀ s ∈ kept.push t.clipped, s.Within ∧ ∀ u ∈ rest, s.start ≤ u.start := by
        intro s hs
        rcases Array.mem_push.mp hs with hs | rfl
        · exact ⟨hwithin s hs, fun u hu => hkept s hs u (List.mem_cons_of_mem t hu)⟩
        · exact ⟨htwithin, hfirst⟩
      obtain ⟨dropped, hperm, hdropped⟩ :=
        ih (fun s hs => (hpush s hs).1) hss' (fun s hs => (hpush s hs).2) hrest
      exact ⟨dropped, by simpa using hperm, hdropped⟩

variable {machine : Option Machine} {order : ByteOrder} {entry : UInt64}
variable {sections : List Section} {symbols : List Symbol}

/-- Of the given sections that are not empty, each one is kept or dropped, and one that is dropped
overlaps one that is kept. -/
def DropsOverlapping (image : Image) (sections : List Section) : Prop :=
  ∃ dropped : List Section,
    (image.sections.toList ++ dropped).Perm ((sections.filter (·.size ≠ 0)).map Section.clipped)
      ∧ ∀ s ∈ dropped, ∃ t ∈ image.sections, s.Overlaps t

theorem dropsOverlapping_build (hwithin : ∀ s ∈ sections, s.Within) :
    (build machine order entry sections symbols).DropsOverlapping sections := by
  have hss : ∀ s ∈ (sections.mergeSort fun s t => s.start ≤ t.start).filter (·.size ≠ 0),
      s.Within ∧ s.size ≠ 0 := by
    intro s hs
    obtain ⟨hmem, hsize⟩ := List.mem_filter.mp hs
    exact ⟨hwithin s (List.mem_mergeSort.mp hmem), of_decide_eq_true hsize⟩
  obtain ⟨dropped, hperm, hdropped⟩ := exists_dropped_keepDisjoint
    (fun s hs => absurd hs (Array.not_mem_empty s)) hss
    (fun s hs => absurd hs (Array.not_mem_empty s)) ((pairwise_start_mergeSort sections).filter _)
  exact ⟨dropped, hperm.trans (((List.mergeSort_perm sections _).filter _).map _), hdropped⟩

/-! ## The partition -/

/-- The section that is found for an address is the one that covers it and ends below `2 ^ 64`. -/
theorem sectionFor_build_eq_some_iff {a : UInt64} {s : Section} :
    (build machine order entry sections symbols).sectionFor a = some s
      ↔ s ∈ (build machine order entry sections symbols).sections ∧ s.Fits ∧ s.Covers a := by
  rw [sectionFor_eq_some_iff_of_ahead pairwise_ahead, Section.contains_iff_covers]

theorem sectionFor_eq_some_iff_covers
    (hfits : ∀ s ∈ (build machine order entry sections symbols).sections, s.Fits) {a : UInt64}
    {s : Section} : (build machine order entry sections symbols).sectionFor a = some s
      ↔ s ∈ (build machine order entry sections symbols).sections ∧ s.Covers a := by
  rw [sectionFor_build_eq_some_iff]
  exact ⟨fun h => ⟨h.1, h.2.2⟩, fun h => ⟨h.1, hfits s h.1, h.2⟩⟩

/-- The sections of an image partition the addresses that they cover. -/
structure Partitions (image : Image) (sections : List Section) : Prop where
  /-- No two of them overlap. -/
  disjoint : image.sections.toList.Pairwise fun s t => ¬ s.Overlaps t
  /-- No section is missing without need. -/
  dropsOverlapping : image.DropsOverlapping sections
  /-- The one that covers an address is found for it. -/
  found : ∀ a s, image.sectionFor a = some s ↔ s ∈ image.sections ∧ s.Covers a

/-- Sections that end below `2 ^ 64` partition the addresses that they cover. -/
theorem partitions_of_fits (hwithin : ∀ s ∈ sections, s.Within)
    (hfits : ∀ s ∈ (build machine order entry sections symbols).sections, s.Fits) :
    (build machine order entry sections symbols).Partitions sections where
  disjoint := (pairwise_before hfits).imp Section.Before.not_overlaps
  dropsOverlapping := dropsOverlapping_build hwithin
  found _ _ := sectionFor_eq_some_iff_covers hfits

/--
**Sections partition the address space, but for those that reach up to its end.**

Take any sections that fit the address space, and the image that is built of them. Two sections that
it keeps overlap only if the first of them ends at `2 ^ 64`. One that is not empty is given up only
if it overlaps a section that is kept. The section that is found for an address is the one that
covers it and ends below `2 ^ 64`. So the sections partition the addresses that they cover if and
only if all of them end below `2 ^ 64`.
-/
theorem partitions_iff_fits (machine : Option Machine) (order : ByteOrder) (entry : UInt64)
    (symbols : List Symbol) {sections : List Section} (hwithin : ∀ s ∈ sections, s.Within) :
    let image := build machine order entry sections symbols
    image.sections.toList.Pairwise (fun s t => s.Overlaps t → ¬ s.Fits)
      ∧ image.DropsOverlapping sections
      ∧ (∀ a s, image.sectionFor a = some s ↔ s ∈ image.sections ∧ s.Fits ∧ s.Covers a)
      ∧ (image.Partitions sections ↔ ∀ s ∈ image.sections, s.Fits) := by
  intro image
  refine ⟨?_, dropsOverlapping_build hwithin, fun a s => sectionFor_build_eq_some_iff,
    fun h s hs => ?_, partitions_of_fits hwithin⟩
  · exact pairwise_ahead.imp fun hahead hoverlaps hfits =>
      (hahead.before_of_fits hfits).not_overlaps hoverlaps
  · -- a section that is kept covers its start, for which it is found
    have hsize : s.size ≠ 0 :=
      forall_mem_sectionTable (P := fun s => s.size ≠ 0) (fun _ _ hsize => hsize) s hs
    have hfound := (h.found s.start s).mpr ⟨hs, Section.covers_start hsize⟩
    exact Section.fits_of_contains (contains_of_sectionFor hfound)

/-- Two bytes of code, the last sixteen addresses, and half of these once more. -/
def topSections : List Section :=
  let code : Permissions := { read := true, execute := true }
  [{ name := ".text", start := 0x1000, size := 2, permissions := code, bytes := #[0x90, 0xc3] },
    { name := "rom", start := 0xfffffffffffffff0, size := 16, permissions := code, bytes := #[] },
    { name := "half", start := 0xfffffffffffffff8, size := 8, permissions := code, bytes := #[] }]

theorem sections_build_topSections :
    (build none .little 0x1000 topSections []).sections = topSections.toArray := by
  have hsorted : topSections.mergeSort (fun s t => s.start ≤ t.start) = topSections :=
    List.mergeSort_of_pairwise (by decide)
  show sectionTable topSections = _
  rw [sectionTable, hsorted]
  decide

/-- The section at the top is kept beside its own half, and nothing is found in it. -/
theorem top_section_unfound :
    let image := build none .little 0x1000 topSections []
    (∀ s ∈ topSections, s.Within)
      ∧ (∃ rom ∈ image.sections, rom.Covers 0xfffffffffffffff4
        ∧ image.sectionFor 0xfffffffffffffff4 = none)
      ∧ ¬ (image.sections.toList.Pairwise fun s t => ¬ s.Overlaps t)
      ∧ ¬ image.Partitions topSections := by
  intro image
  have hsections : image.sections = topSections.toArray := sections_build_topSections
  have hnone : image.sectionFor 0xfffffffffffffff4 = none := by
    rw [sectionFor, hsections]
    decide +kernel
  have hoverlaps : ¬ (image.sections.toList.Pairwise fun s t => ¬ s.Overlaps t) := by
    rw [hsections]
    intro hdisjoint
    obtain ⟨-, hrom⟩ := List.pairwise_cons.mp hdisjoint
    exact (List.pairwise_cons.mp hrom).1 _ List.mem_cons_self
      ⟨0xfffffffffffffff8, by decide, by decide⟩
  refine ⟨by decide, ?_, hoverlaps, fun h => hoverlaps h.disjoint⟩
  rw [hsections]
  exact ⟨_, List.mem_toArray.mpr (List.mem_cons_of_mem _ List.mem_cons_self), by decide, hnone⟩

/-- Below the top, the section of an address is found nevertheless. -/
theorem partitions_iff_fits_top :
    let image := build none .little 0x1000 topSections []
    (∀ s ∈ topSections, s.Within)
      ∧ (∃ text ∈ topSections, text.name = Text.ofString ".text"
        ∧ image.sectionFor 0x1001 = some text)
      ∧ (image.Partitions topSections ↔ ∀ s ∈ image.sections, s.Fits) := by
  intro image
  have hwithin : ∀ s ∈ topSections, s.Within := by decide
  have hsections : image.sections = topSections.toArray := sections_build_topSections
  obtain ⟨-, -, hfound, hiff⟩ := partitions_iff_fits none .little 0x1000 [] hwithin
  refine ⟨hwithin, ⟨_, List.mem_cons_self, by decide, (hfound 0x1001 _).mpr ⟨?_, ?_⟩⟩, hiff⟩
  · rw [sections_build_topSections]
    exact List.mem_toArray.mpr List.mem_cons_self
  · decide

end Image

end Disassembler
