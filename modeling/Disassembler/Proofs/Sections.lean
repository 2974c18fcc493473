import Disassembler.Sweep
import Disassembler.Proofs.Decode
import Disassembler.Proofs.Search

/-!
# What a section backs

A section holds an address only if it ends below `2 ^ 64`: the end of one that does not wraps to
its start or below, and no address is between the two. So offsets into a section, and everything
that lies in its bytes, can be counted in natural numbers. Reading from an image is reading on from
an address in the bytes of the one section that is found for it. A section that ends below `2 ^ 64`
ends before the next one starts, so the one that is found for an address is the one that holds it.
If all sections of an image end below `2 ^ 64`, they lie one behind the other.
-/

namespace Disassembler

namespace Section

theorem start_le_of_contains {s : Section} {a : UInt64} (h : s.contains a = true) :
    s.start.toNat ≤ a.toNat := by
  simp only [contains, Bool.and_eq_true, decide_eq_true_eq] at h
  exact UInt64.le_iff_toNat_le.mp h.1

/-- A section that holds an address does not wrap. -/
theorem stop_toNat_of_contains {s : Section} {a : UInt64} (h : s.contains a = true) :
    s.stop.toNat = s.start.toNat + s.size.toNat := by
  have hstart := start_le_of_contains h
  simp only [contains, Bool.and_eq_true, decide_eq_true_eq] at h
  have hstop := UInt64.lt_iff_toNat_lt.mp h.2
  -- a sum of two such numbers wraps once at most, and then to an end below the start
  have hsize := s.size.toNat_lt
  have hbegin := s.start.toNat_lt
  simp only [stop, UInt64.toNat_add] at hstop ⊢
  omega

theorem lt_of_contains {s : Section} {a : UInt64} (h : s.contains a = true) :
    a.toNat < s.start.toNat + s.size.toNat := by
  rw [← stop_toNat_of_contains h]
  simp only [contains, Bool.and_eq_true, decide_eq_true_eq] at h
  exact UInt64.lt_iff_toNat_lt.mp h.2

theorem offset_of_contains {s : Section} {a : UInt64} (h : s.contains a = true) :
    s.offset a = a.toNat - s.start.toNat :=
  UInt64.toNat_sub_of_le _ _ (UInt64.le_iff_toNat_le.mpr (start_le_of_contains h))

/-- A window is a first part of the bytes from its address on. -/
theorem window_eq_take (s : Section) (a : UInt64) (n : Nat) :
    s.window a n = (s.bytes.toList.drop (s.offset a)).take n := by
  rw [window, Array.toList_extract, List.extract_eq_take_drop, Nat.add_sub_cancel_left]

end Section

/-! ## The table of sections -/

namespace Image

/-- What holds of the clipped sections holds of those that are kept. -/
theorem forall_mem_keepDisjoint {P : Section → Prop} {kept : Array Section} {ss : List Section}
    (h : ∀ s ∈ kept, P s) (hss : ∀ s ∈ ss, P s.clipped) : ∀ s ∈ keepDisjoint kept ss, P s := by
  induction ss generalizing kept with
  | nil => exact h
  | cons t rest ih =>
    have hrest : ∀ s ∈ rest, P s.clipped := fun s hs => hss s (List.mem_cons_of_mem t hs)
    unfold keepDisjoint
    split
    · exact ih h hrest
    · refine ih (fun s hs => ?_) hrest
      rcases Array.mem_push.mp hs with hs | rfl
      · exact h s hs
      · exact hss t List.mem_cons_self

/-- What holds of the clipped sections that are not empty holds of the table. -/
theorem forall_mem_sectionTable {P : Section → Prop} {sections : List Section}
    (h : ∀ s ∈ sections, s.size ≠ 0 → P s.clipped) : ∀ s ∈ sectionTable sections, P s := by
  refine forall_mem_keepDisjoint (fun s hs => absurd hs (Array.not_mem_empty s)) fun s hs => ?_
  obtain ⟨hmem, hsize⟩ := List.mem_filter.mp hs
  exact h s (List.mem_mergeSort.mp hmem) (by simpa using hsize)

/-- **No section of an image has more bytes than addresses.** -/
theorem size_bytes_le {machine : Option Machine} {order : ByteOrder} {entry : UInt64}
    {sections : List Section} {symbols : List Symbol} {s : Section}
    (h : s ∈ (build machine order entry sections symbols).sections) :
    s.bytes.size ≤ s.size.toNat := by
  refine forall_mem_sectionTable (P := fun s => s.bytes.size ≤ s.size.toNat) (fun t _ _ => ?_) s h
  simp only [Section.clipped, Array.size_extract]
  omega

/-! ## Finding a section -/

theorem mem_of_sectionFor {image : Image} {a : UInt64} {s : Section}
    (h : image.sectionFor a = some s) : s ∈ image.sections := by
  obtain ⟨hlast, -⟩ := Option.filter_eq_some_iff.mp h
  exact Search.mem_of_last? hlast

theorem contains_of_sectionFor {image : Image} {a : UInt64} {s : Section}
    (h : image.sectionFor a = some s) : s.contains a = true :=
  (Option.filter_eq_some_iff.mp h).2

/-- Code is what an executable section is found for. -/
theorem inCode_iff {image : Image} {a : UInt64} :
    image.inCode a = true ↔ ∃ s, image.sectionFor a = some s ∧ s.executable = true :=
  Option.any_eq_true _ _

/-! ## Reading -/

theorem bytesFrom_of_sectionFor {image : Image} {a : UInt64} {s : Section}
    (h : image.sectionFor a = some s) :
    image.bytesFrom a = s.bytes.toList.drop (s.offset a) := by
  simp only [bytesFrom, h, Section.window_eq_take]
  refine List.take_of_length_le ?_
  simp only [List.length_drop, Array.length_toList]
  omega

/-- A window is a first part of all bytes from its address on. -/
theorem window_eq_take (image : Image) (a : UInt64) (n : Nat) :
    image.window a n = (image.bytesFrom a).take n := by
  rcases h : image.sectionFor a with _ | s
  · simp [window, bytesFrom, h]
  · rw [bytesFrom_of_sectionFor h, ← Section.window_eq_take]
    simp only [window, h]

/-- Reading gives exactly the bytes that are there. -/
theorem read_eq_some_iff {image : Image} {a : UInt64} {n : Nat} {bs : List UInt8} :
    image.read a n = some bs ↔ bs = (image.bytesFrom a).take n ∧ bs.length = n := by
  simp only [read, window_eq_take]
  constructor
  · intro h
    split at h
    · rename_i hlen
      obtain rfl := Option.some.inj h
      exact ⟨rfl, hlen⟩
    · exact absurd h (by simp)
  · rintro ⟨rfl, hlen⟩
    rw [if_pos hlen]

/-- The bytes that are found for an address end with the section's backing. -/
theorem length_bytesFrom {image : Image} {a : UInt64} {s : Section}
    (h : image.sectionFor a = some s) :
    (image.bytesFrom a).length = s.start.toNat + s.bytes.size - a.toNat := by
  have hstart := Section.start_le_of_contains (contains_of_sectionFor h)
  rw [bytesFrom_of_sectionFor h, Section.offset_of_contains (contains_of_sectionFor h)]
  simp only [List.length_drop, Array.length_toList]
  omega

/-- The instruction at an address is decoded from all bytes that are there. -/
theorem decodeAt_eq_decode (image : Image) (m : Machine) (a : UInt64) :
    image.decodeAt m a = decode m image.order (image.bytesFrom a) a := by
  rw [decodeAt, window_eq_take, decode_take]

end Image

/-! ## Sections in order -/

namespace Section

/-- The section ends below `2 ^ 64`. -/
def Fits (s : Section) : Prop := s.start.toNat + s.size.toNat < UInt64.size

theorem Fits.stop_toNat {s : Section} (h : s.Fits) :
    s.stop.toNat = s.start.toNat + s.size.toNat := by
  rw [stop, UInt64.toNat_add]
  exact Nat.mod_eq_of_lt h

/-- Only a section that ends below `2 ^ 64` holds an address. -/
theorem fits_of_contains {s : Section} {a : UInt64} (h : s.contains a = true) : s.Fits := by
  rw [Fits, ← stop_toNat_of_contains h]
  exact s.stop.toNat_lt

theorem Fits.contains_iff {s : Section} (h : s.Fits) {a : UInt64} : s.contains a = true ↔
    s.start.toNat ≤ a.toNat ∧ a.toNat < s.start.toNat + s.size.toNat := by
  simp only [contains, Bool.and_eq_true, decide_eq_true_eq, UInt64.le_iff_toNat_le,
    UInt64.lt_iff_toNat_lt, h.stop_toNat]

/-- One section ends before another one starts. -/
def Before (s t : Section) : Prop := s.start.toNat + s.size.toNat ≤ t.start.toNat

/-- One section starts no later than another one, and ends before that one starts if it ends below
`2 ^ 64`. -/
structure Ahead (s t : Section) : Prop where
  start_le : s.start.toNat ≤ t.start.toNat
  before_of_fits : s.Fits → s.Before t

theorem Before.ahead {s t : Section} (h : s.Before t) : s.Ahead t :=
  ⟨Nat.le_trans (Nat.le_add_right _ _) h, fun _ => h⟩

end Section

namespace Image

/-- A section that is kept stays. -/
theorem mem_keepDisjoint_of_mem {kept : Array Section} {ss : List Section} {s : Section}
    (h : s ∈ kept) : s ∈ keepDisjoint kept ss := by
  induction ss generalizing kept with
  | nil => exact h
  | cons t rest ih =>
    unfold keepDisjoint
    split
    · exact ih h
    · exact ih (Array.mem_push_of_mem t.clipped h)

/-- Sections by start are ahead of one that does not start inside the last of them. -/
theorem pairwise_ahead_push {kept : Array Section} {t : Section}
    (h : kept.toList.Pairwise Section.Ahead) (hstart : ∀ s ∈ kept, s.start ≤ t.start)
    (ht : ¬ (kept.back?.any fun last => t.start < last.stop) = true) :
    (kept.push t.clipped).toList.Pairwise Section.Ahead := by
  rw [Array.toList_push, List.pairwise_append]
  refine ⟨h, List.pairwise_singleton _ _, fun s hs u hu => ?_⟩
  obtain rfl := List.mem_singleton.mp hu
  have hle : ∀ r ∈ kept, r.start.toNat ≤ t.start.toNat := fun r hr =>
    UInt64.le_iff_toNat_le.mp (hstart r hr)
  refine ⟨hle s (Array.mem_toList_iff.mp hs), fun hfits => ?_⟩
  obtain ⟨front, last, hkept⟩ : ∃ front last, kept.toList = front ++ [last] :=
    ⟨_, _, (List.dropLast_concat_getLast (List.ne_nil_of_mem hs)).symm⟩
  have hback : kept.back? = some last := by
    rw [← Array.getLast?_toList, hkept, List.getLast?_concat]
  rw [hkept] at h hs
  rcases List.mem_append.mp hs with hs | hs
  · -- what ends before the last one starts also ends before the new one does
    have hahead : s.Ahead last :=
      (List.pairwise_append.mp h).2.2 s hs last (List.mem_singleton_self last)
    have hmem : last ∈ kept := Array.mem_toList_iff.mp (by rw [hkept]; simp)
    exact Nat.le_trans (hahead.before_of_fits hfits) (hle last hmem)
  · obtain rfl := List.mem_singleton.mp hs
    simp only [hback, Option.any_some, decide_eq_true_eq] at ht
    have hstop := UInt64.le_iff_toNat_le.mp (UInt64.not_lt.mp ht)
    rwa [hfits.stop_toNat] at hstop

theorem pairwise_ahead_keepDisjoint {kept : Array Section} {ss : List Section}
    (h : kept.toList.Pairwise Section.Ahead) (hkept : ∀ s ∈ kept, ∀ t ∈ ss, s.start ≤ t.start)
    (hss : ss.Pairwise fun s t => s.start ≤ t.start) :
    (keepDisjoint kept ss).toList.Pairwise Section.Ahead := by
  induction ss generalizing kept with
  | nil => exact h
  | cons t rest ih =>
    obtain ⟨hfirst, hrest⟩ := List.pairwise_cons.mp hss
    unfold keepDisjoint
    split
    · exact ih h (fun s hs u hu => hkept s hs u (List.mem_cons_of_mem t hu)) hrest
    · rename_i hbehind
      refine ih (pairwise_ahead_push h (fun s hs => ?_) hbehind) (fun s hs u hu => ?_) hrest
      · exact hkept s hs t List.mem_cons_self
      · rcases Array.mem_push.mp hs with hs | rfl
        · exact hkept s hs u (List.mem_cons_of_mem t hu)
        · exact hfirst u hu

/-- The sections of an image in the order in which they are looked at. -/
theorem pairwise_start_mergeSort (sections : List Section) :
    (sections.mergeSort fun s t => s.start ≤ t.start).Pairwise fun s t => s.start ≤ t.start := by
  refine (List.pairwise_mergeSort (fun s t u hst htu => ?_) (fun s t => ?_) sections).imp
    of_decide_eq_true
  · exact decide_eq_true (UInt64.le_trans (of_decide_eq_true hst) (of_decide_eq_true htu))
  · simpa using UInt64.le_total s.start t.start

variable {machine : Option Machine} {order : ByteOrder} {entry : UInt64}
variable {sections : List Section} {symbols : List Symbol}

/-- No section of an image is empty. -/
theorem size_pos {s : Section} (h : s ∈ (build machine order entry sections symbols).sections) :
    0 < s.size.toNat := by
  have hne : s.size ≠ 0 :=
    forall_mem_sectionTable (P := fun s => s.size ≠ 0) (fun _ _ hsize => hsize) s h
  exact Nat.pos_of_ne_zero fun hzero => hne (UInt64.toNat_inj.mp hzero)

/-- **Each section of an image is ahead of those behind it**, also if it wraps. -/
theorem pairwise_ahead :
    (build machine order entry sections symbols).sections.toList.Pairwise Section.Ahead :=
  pairwise_ahead_keepDisjoint List.Pairwise.nil
    (fun s hs => absurd hs (Array.not_mem_empty s)) ((pairwise_start_mergeSort sections).filter _)

/-- **The sections of an image ascend by start**, also if they wrap. -/
theorem pairwise_start_sections :
    (build machine order entry sections symbols).sections.toList.Pairwise
      fun s t => s.start ≤ t.start :=
  pairwise_ahead.imp fun hahead => UInt64.le_iff_toNat_le.mpr hahead.start_le

/-- **Sections that end below `2 ^ 64` lie one behind the other.** -/
theorem pairwise_before
    (hfits : ∀ s ∈ (build machine order entry sections symbols).sections, s.Fits) :
    (build machine order entry sections symbols).sections.toList.Pairwise Section.Before :=
  pairwise_ahead.imp_of_mem fun hs _ hahead =>
    hahead.before_of_fits (hfits _ (Array.mem_toList_iff.mp hs))

/-- Among sections each of which is ahead of those behind it, the one that holds an address is
found. -/
theorem sectionFor_eq_some_iff_of_ahead {image : Image}
    (hahead : image.sections.toList.Pairwise Section.Ahead) {a : UInt64} {s : Section} :
    image.sectionFor a = some s ↔ s ∈ image.sections ∧ s.contains a = true := by
  constructor
  · intro h
    exact ⟨mem_of_sectionFor h, contains_of_sectionFor h⟩
  · rintro ⟨hs, hcontains⟩
    have hfalling : Search.Falling (fun t : Section => t.start ≤ a) image.sections :=
      Search.falling_le (hahead.imp fun htu => UInt64.le_iff_toNat_le.mpr htu.start_le)
    have hstart : s.start ≤ a := UInt64.le_iff_toNat_le.mpr (Section.start_le_of_contains hcontains)
    rcases hlast : Search.last? (fun t : Section => t.start ≤ a) image.sections with _ | t
    · have hnone := Search.last?_eq_none hfalling hlast s hs
      exact absurd hstart (of_decide_eq_false hnone)
    · obtain ⟨ht, hle, hall⟩ := Search.last?_eq_some hfalling hahead hlast
      have hle := UInt64.le_iff_toNat_le.mp (of_decide_eq_true hle)
      rcases hall s hs (decide_eq_true hstart) with rfl | hst
      · show (Search.last? _ _).filter _ = some s
        rw [hlast, Option.filter_some, if_pos hcontains]
      · -- a later section would start at the end of this one, behind the address
        have hst : s.start.toNat + s.size.toNat ≤ t.start.toNat :=
          hst.before_of_fits (Section.fits_of_contains hcontains)
        have hlt := Section.lt_of_contains hcontains
        omega

/-- In sections that lie one behind the other, the one that holds an address is found. -/
theorem sectionFor_eq_some_iff {image : Image}
    (hbefore : image.sections.toList.Pairwise Section.Before) {a : UInt64} {s : Section} :
    image.sectionFor a = some s ↔ s ∈ image.sections ∧ s.contains a = true :=
  sectionFor_eq_some_iff_of_ahead (hbefore.imp Section.Before.ahead)

end Image

end Disassembler
