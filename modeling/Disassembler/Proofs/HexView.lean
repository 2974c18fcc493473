import Disassembler.HexView
import Disassembler.Proofs.Numeral
import Disassembler.Proofs.Partition

/-!
# The rows of the hex view

A row belongs to the hex view if an address of a section is among its sixteen. The ranges that
`HexSpan.join` makes of sections in order hold the addresses of these rows and no others, and they
lie apart; so the spans, which are the ranges with the rows counted through, have each row once.
What a row shows is then a matter of the image alone.

All of this is about sections that leave the last sixteen addresses alone. The rows of a section
that reaches into these end at `2 ^ 64`, which is zero for a range.
-/

namespace Disassembler

namespace Section

/-- The section ends sixteen addresses below `2 ^ 64`, or before: the last row is left alone. -/
def Clear (s : Section) : Prop := s.start.toNat + s.size.toNat + hexRowBytes ≤ UInt64.size

instance (s : Section) : Decidable s.Clear := inferInstanceAs (Decidable (_ ≤ _))

theorem Clear.fits {s : Section} (h : s.Clear) : s.Fits :=
  Nat.lt_of_lt_of_le (Nat.lt_add_of_pos_right (by decide)) h

end Section

namespace HexSpan

/-- An address is one of a range. -/
def InRange (r : UInt64 × UInt64) (n : Nat) : Prop := r.1.toNat ≤ n ∧ n < r.2.toNat

/-- The row of an address, in numbers that do not wrap, has an address of a section. -/
def Touches (s : Section) (n : Nat) : Prop :=
  ∃ a, s.Covers a ∧ a.toNat / hexRowBytes = n / hexRowBytes

theorem alignDown_toNat (a : UInt64) :
    (alignDown a).toNat = hexRowBytes * (a.toNat / hexRowBytes) := by
  have hmod : (a % UInt64.ofNat hexRowBytes).toNat = a.toNat % hexRowBytes := rfl
  have hle : a % UInt64.ofNat hexRowBytes ≤ a := by
    rw [UInt64.le_iff_toNat_le, hmod]
    exact Nat.mod_le _ _
  rw [alignDown, UInt64.toNat_sub_of_le _ _ hle, hmod]
  have hdiv := Nat.div_add_mod a.toNat hexRowBytes
  omega

/-! ## Ranges -/

theorem range_toNat {s : Section} (h : s.Clear) :
    (range s).1.toNat = hexRowBytes * (s.start.toNat / hexRowBytes)
      ∧ (range s).2.toNat
        = hexRowBytes * ((s.start.toNat + s.size.toNat + (hexRowBytes - 1)) / hexRowBytes) := by
  refine ⟨alignDown_toNat s.start, ?_⟩
  have hstop : (s.stop + UInt64.ofNat (hexRowBytes - 1)).toNat
      = s.start.toNat + s.size.toNat + (hexRowBytes - 1) := by
    rw [UInt64.toNat_add, h.fits.stop_toNat]
    exact Nat.mod_eq_of_lt (Nat.lt_of_lt_of_le (Nat.add_lt_add_left (by decide) _) h)
  rw [range, alignDown_toNat, hstop]

/-- The range of a section holds the addresses of the rows that the section touches. -/
theorem inRange_range_iff {s : Section} (h : s.Clear) (hpos : 0 < s.size.toNat) {n : Nat} :
    InRange (range s) n ↔ Touches s n := by
  obtain ⟨hstart, hstop⟩ := range_toNat h
  simp only [InRange, Touches, Section.Covers, hstart, hstop, hexRowBytes]
  constructor
  · rintro ⟨hle, hlt⟩
    -- the row and the section have the later one of their starts in common
    have hsize : max s.start.toNat (16 * (n / 16)) < UInt64.size := by
      have h : s.start.toNat + s.size.toNat + 16 ≤ UInt64.size := h
      omega
    refine ⟨UInt64.ofNatLT _ hsize, ?_⟩
    rw [UInt64.toNat_ofNatLT]
    omega
  · rintro ⟨a, ha, hrow⟩
    omega

/-- The range is made of rows, and of one at least. -/
structure Whole (r : UInt64 × UInt64) : Prop where
  first : r.1.toNat % hexRowBytes = 0
  last : r.2.toNat % hexRowBytes = 0
  pos : r.1.toNat < r.2.toNat

theorem whole_range {s : Section} (h : s.Clear) (hpos : 0 < s.size.toNat) : Whole (range s) := by
  obtain ⟨hstart, hstop⟩ := range_toNat h
  refine ⟨?_, ?_, ?_⟩
  · rw [hstart]
    exact Nat.mul_mod_right _ _
  · rw [hstop]
    exact Nat.mul_mod_right _ _
  · rw [hstart, hstop]
    simp only [hexRowBytes]
    omega

/-- Ranges in order that hold the addresses of the rows which some sections touch. -/
structure Joined (ranges : List (UInt64 × UInt64)) (ss : List Section) : Prop where
  whole : ∀ r ∈ ranges, Whole r
  before : ranges.Pairwise fun r t => r.2.toNat ≤ t.1.toNat
  inRange_iff : ∀ n, (∃ r ∈ ranges, InRange r n) ↔ ∃ s ∈ ss, Touches s n

theorem joined_nil : Joined [] [] where
  whole := by simp
  before := List.Pairwise.nil
  inRange_iff := by simp

theorem joined_concat {front : List (UInt64 × UInt64)} {r : UInt64 × UInt64} {ss : List Section} :
    Joined (front ++ [r]) ss ↔ (∀ t ∈ front, Whole t ∧ t.2.toNat ≤ r.1.toNat)
      ∧ front.Pairwise (fun t u => t.2.toNat ≤ u.1.toNat) ∧ Whole r
      ∧ ∀ n, (∃ t ∈ front, InRange t n) ∨ InRange r n ↔ ∃ s ∈ ss, Touches s n := by
  have hin : ∀ n, (∃ t ∈ front ++ [r], InRange t n) ↔ (∃ t ∈ front, InRange t n) ∨ InRange r n := by
    simp only [List.mem_append, List.mem_singleton, or_and_right, exists_or, exists_eq_left,
      implies_true]
  constructor
  · rintro ⟨hwhole, hbefore, hall⟩
    obtain ⟨hfront, -, hlast⟩ := List.pairwise_append.mp hbefore
    refine ⟨fun t ht => ⟨hwhole t (List.mem_append_left _ ht), hlast t ht r List.mem_cons_self⟩,
      hfront, hwhole r (by simp), fun n => (hin n).symm.trans (hall n)⟩
  · rintro ⟨hfront, hbefore, hr, hall⟩
    refine ⟨fun t ht => ?_, List.pairwise_append.mpr ⟨hbefore, List.pairwise_singleton _ _,
      fun t ht u hu => ?_⟩, fun n => (hin n).trans (hall n)⟩
    · rcases List.mem_append.mp ht with ht | ht
      · exact (hfront t ht).1
      · exact List.mem_singleton.mp ht ▸ hr
    · exact List.mem_singleton.mp hu ▸ (hfront t ht).2

theorem toNat_max (a b : UInt64) : (max a b).toNat = max a.toNat b.toNat := by
  show (if a ≤ b then b else a).toNat = max a.toNat b.toNat
  split
  · rename_i hle
    exact (Nat.max_eq_right (UInt64.le_iff_toNat_le.mp hle)).symm
  · rename_i hle
    exact (Nat.max_eq_left (Nat.le_of_lt (UInt64.lt_iff_toNat_lt.mp (UInt64.not_le.mp hle)))).symm

/-- A section lengthens the last range or adds one of its own. -/
theorem join_cases (ranges : Array (UInt64 × UInt64)) {s : Section}
    (hne : (range s).1 ≠ (range s).2) :
    (∃ front first last, ranges.toList = front ++ [(first, last)] ∧ (range s).1 < last
        ∧ (join ranges s).toList = front ++ [(first, max last (range s).2)])
      ∨ (∀ front r, ranges.toList = front ++ [r] → r.2 ≤ (range s).1)
        ∧ (join ranges s).toList = ranges.toList ++ [range s] := by
  unfold join
  dsimp only
  rw [if_neg hne, ← Array.getLast?_toList]
  rcases hlast : ranges.toList.getLast? with _ | ⟨first, last⟩
  · refine Or.inr ⟨fun front r hr => ?_, by simp⟩
    rw [hr, List.getLast?_concat] at hlast
    exact absurd hlast (by simp)
  · dsimp only
    obtain ⟨front, hfront⟩ := List.getLast?_eq_some_iff.mp hlast
    by_cases hlt : (range s).1 < last
    · exact Or.inl ⟨front, first, last, hfront, hlt, by simp [hlt, hfront]⟩
    · refine Or.inr ⟨fun front' r hr => ?_, by simp [hlt]⟩
      rw [hr, List.getLast?_concat] at hlast
      obtain rfl := Option.some.inj hlast
      exact UInt64.not_lt.mp hlt

variable {ranges : Array (UInt64 × UInt64)} {ss : List Section} {s : Section}

/-- A range starts no later than the rows of a section that follows. -/
theorem Joined.first_le (h : Joined ranges.toList ss) (hbefore : ∀ t ∈ ss, t.Before s)
    (hclear : s.Clear) {r : UInt64 × UInt64} (hr : r ∈ ranges.toList) :
    r.1.toNat ≤ (range s).1.toNat := by
  obtain ⟨t, ht, a, ha, hrow⟩ :=
    (h.inRange_iff r.1.toNat).mp ⟨r, hr, Nat.le_refl _, (h.whole r hr).pos⟩
  have hts : t.start.toNat + t.size.toNat ≤ s.start.toNat := hbefore t ht
  have haligned := (h.whole r hr).first
  rw [(range_toNat hclear).1]
  simp only [Section.Covers, hexRowBytes] at ha hrow haligned ⊢
  omega

/-- A range that another one reaches into is lengthened to hold what both of them hold. -/
theorem lengthen {first last : UInt64} {r : UInt64 × UInt64} (hold : Whole (first, last))
    (hr : Whole r) (hfirst : first.toNat ≤ r.1.toNat) (hover : r.1 < last) :
    Whole (first, max last r.2)
      ∧ ∀ n, InRange (first, max last r.2) n ↔ InRange (first, last) n ∨ InRange r n := by
  have hover := UInt64.lt_iff_toNat_lt.mp hover
  have hmax := toNat_max last r.2
  refine ⟨⟨hold.first, ?_, ?_⟩, fun n => ?_⟩
  · show (max last r.2).toNat % hexRowBytes = 0
    rw [hmax]
    rcases Nat.le_total last.toNat r.2.toNat with hle | hle
    · rw [Nat.max_eq_right hle]
      exact hr.last
    · rw [Nat.max_eq_left hle]
      exact hold.last
  · have hlt : first.toNat < last.toNat := hold.pos
    show first.toNat < (max last r.2).toNat
    omega
  · have hlt := hr.pos
    simp only [InRange, hmax]
    omega

/-- **A section joins the ranges of the sections before it.** -/
theorem Joined.join (h : Joined ranges.toList ss) (hbefore : ∀ t ∈ ss, t.Before s)
    (hclear : s.Clear) (hpos : 0 < s.size.toNat) :
    Joined (join ranges s).toList (ss ++ [s]) := by
  have hwhole := whole_range hclear hpos
  have hne : (range s).1 ≠ (range s).2 := fun heq =>
    Nat.ne_of_lt hwhole.pos (congrArg UInt64.toNat heq)
  have htouches : ∀ n, (∃ t ∈ ss ++ [s], Touches t n)
      ↔ (∃ t ∈ ss, Touches t n) ∨ InRange (range s) n := by
    intro n
    simp only [List.mem_append, List.mem_singleton, or_and_right, exists_or, exists_eq_left,
      inRange_range_iff hclear hpos]
  rcases join_cases ranges hne with
    ⟨front, first, last, hranges, hover, hjoin⟩ | ⟨hbehind, hjoin⟩
  · have hfirst := h.first_le hbefore hclear (r := (first, last)) (by rw [hranges]; simp)
    rw [hranges, joined_concat] at h
    obtain ⟨hfront, hpairs, hold, hall⟩ := h
    obtain ⟨hlonger, hin⟩ := lengthen hold hwhole hfirst hover
    rw [hjoin, joined_concat]
    refine ⟨hfront, hpairs, hlonger, fun n => ?_⟩
    rw [hin, ← or_assoc, hall, htouches]
  · rw [hjoin, joined_concat]
    refine ⟨fun t ht => ⟨h.whole t ht, ?_⟩, h.before, hwhole, fun n => ?_⟩
    · -- all ranges end where the last one does, or before it
      obtain ⟨front, r, hranges⟩ : ∃ front r, ranges.toList = front ++ [r] :=
        ⟨_, _, (List.dropLast_concat_getLast (List.ne_nil_of_mem ht)).symm⟩
      have hlast := UInt64.le_iff_toNat_le.mp (hbehind front r hranges)
      rw [hranges] at h ht
      obtain ⟨hfront, -, hr, -⟩ := joined_concat.mp h
      rcases List.mem_append.mp ht with ht | ht
      · have hle := (hfront t ht).2
        have hlt := hr.pos
        omega
      · rwa [List.mem_singleton.mp ht]
    · rw [h.inRange_iff, htouches]

/-- **The ranges of sections that lie one behind the other hold the rows that these touch.** -/
theorem Joined.foldl {rest : List Section} (h : Joined ranges.toList ss)
    (hbefore : (ss ++ rest).Pairwise Section.Before)
    (hrest : ∀ s ∈ rest, s.Clear ∧ 0 < s.size.toNat) :
    Joined (rest.foldl HexSpan.join ranges).toList (ss ++ rest) := by
  induction rest generalizing ranges ss with
  | nil => simpa using h
  | cons s rest ih =>
    obtain ⟨hclear, hpos⟩ := hrest s List.mem_cons_self
    have hfront := (List.pairwise_append.mp hbefore).2.2
    rw [List.append_cons] at hbefore ⊢
    refine ih (h.join (fun t ht => hfront t ht s List.mem_cons_self) hclear hpos) hbefore ?_
    exact fun t ht => hrest t (List.mem_cons_of_mem s ht)

/-! ## Spans -/

theorem map_ofRanges (row : Nat) (ranges : List (UInt64 × UInt64)) :
    (ofRanges row ranges).map (fun s => (s.start, s.stop)) = ranges := by
  induction ranges generalizing row with
  | nil => rfl
  | cons r rest ih => simp only [ofRanges, List.map_cons, ih]

/-- The number of rows that spans make together. -/
def totalRows (spans : List HexSpan) : Nat := (spans.map rows).foldr (· + ·) 0

/-- The rows of spans follow each other without a gap. -/
theorem exists_mem_ofRanges {row i : Nat} {ranges : List (UInt64 × UInt64)} (hrow : row ≤ i)
    (hi : i < row + totalRows (ofRanges row ranges)) :
    ∃ s ∈ ofRanges row ranges, s.firstRow ≤ i ∧ i < s.firstRow + s.rows := by
  induction ranges generalizing row with
  | nil => exact absurd hi (Nat.not_lt.mpr hrow)
  | cons r rest ih =>
    let span : HexSpan := { firstRow := row, start := r.1, stop := r.2 }
    have hsum : totalRows (ofRanges row (r :: rest))
        = span.rows + totalRows (ofRanges (row + span.rows) rest) := rfl
    by_cases hfirst : i < row + span.rows
    · exact ⟨span, List.mem_cons_self, hrow, hfirst⟩
    · obtain ⟨s, hs, hle, hlt⟩ := ih (Nat.le_of_not_lt hfirst) (by omega)
      exact ⟨s, List.mem_cons_of_mem span hs, hle, hlt⟩

/-- And each of them has its rows among those of all. -/
theorem bounds_of_mem_ofRanges {row : Nat} {ranges : List (UInt64 × UInt64)} {s : HexSpan}
    (hs : s ∈ ofRanges row ranges) :
    row ≤ s.firstRow ∧ s.firstRow + s.rows ≤ row + totalRows (ofRanges row ranges) := by
  induction ranges generalizing row with
  | nil => exact absurd hs List.not_mem_nil
  | cons r rest ih =>
    let span : HexSpan := { firstRow := row, start := r.1, stop := r.2 }
    have hsum : totalRows (ofRanges row (r :: rest))
        = span.rows + totalRows (ofRanges (row + span.rows) rest) := rfl
    rcases List.mem_cons.mp hs with heq | hs
    · obtain rfl : s = span := heq
      exact ⟨Nat.le_refl _, by rw [hsum]; exact Nat.add_le_add_left (Nat.le_add_right _ _) row⟩
    · have hbounds : row + span.rows ≤ s.firstRow ∧ s.firstRow + s.rows
          ≤ row + span.rows + totalRows (ofRanges (row + span.rows) rest) := ih hs
      rw [hsum]
      omega

theorem pairwise_ofRanges (row : Nat) (ranges : List (UInt64 × UInt64)) :
    (ofRanges row ranges).Pairwise fun s t => s.firstRow + s.rows ≤ t.firstRow := by
  induction ranges generalizing row with
  | nil => exact List.Pairwise.nil
  | cons r rest ih =>
    exact List.pairwise_cons.mpr ⟨fun t ht => (bounds_of_mem_ofRanges ht).1, ih _⟩

/-- The rows of a whole range are all of it. -/
theorem Whole.rows_mul {s : HexSpan} (h : Whole (s.start, s.stop)) :
    s.stop.toNat = s.start.toNat + hexRowBytes * s.rows := by
  have hfirst : s.start.toNat % hexRowBytes = 0 := h.first
  have hlast : s.stop.toNat % hexRowBytes = 0 := h.last
  have hpos : s.start.toNat < s.stop.toNat := h.pos
  rw [rows, UInt64.toNat_sub_of_le _ _ (UInt64.le_iff_toNat_le.mpr (Nat.le_of_lt hpos))]
  simp only [hexRowBytes] at hfirst hlast ⊢
  omega

end HexSpan

/-! ## Rows -/

/-- The address is among those of a row of the hex view. -/
def Row.ShowsByte (r : Row) (a : UInt64) : Prop :=
  r.address.toNat ≤ a.toNat ∧ a.toNat < r.address.toNat + hexRowBytes

namespace HexView

open HexSpan

/-- The spans are whole ranges in order, with their rows counted through, and hold the rows that the
sections of the image touch. -/
structure Spanned (v : HexView) : Prop where
  whole : ∀ s ∈ v.spans, Whole (s.start, s.stop)
  before : v.spans.toList.Pairwise fun s t =>
    s.firstRow + s.rows ≤ t.firstRow ∧ s.stop.toNat ≤ t.start.toNat
  exists_span : ∀ i < v.size, ∃ s ∈ v.spans, s.firstRow ≤ i ∧ i < s.firstRow + s.rows
  rows_le : ∀ s ∈ v.spans, s.firstRow + s.rows ≤ v.size
  inRange_iff : ∀ n, (∃ s ∈ v.spans, InRange (s.start, s.stop) n)
    ↔ ∃ s ∈ v.image.sections, Touches s n

theorem spanned_of_joined {image : Image}
    (h : Joined (image.sections.foldl HexSpan.join #[]).toList image.sections.toList) :
    (build image).Spanned := by
  let ranges := (image.sections.foldl HexSpan.join #[]).toList
  let spans := ofRanges 0 ranges
  have hmap : spans.map (fun s => (s.start, s.stop)) = ranges := map_ofRanges 0 ranges
  have hmem : ∀ s ∈ spans, (s.start, s.stop) ∈ ranges := fun s hs => by
    rw [← hmap]
    exact List.mem_map_of_mem hs
  have hbefore : spans.Pairwise fun s t => s.stop.toNat ≤ t.start.toNat := by
    have hranges : ranges.Pairwise fun r t => r.2.toNat ≤ t.1.toNat := h.before
    rw [← hmap] at hranges
    exact List.pairwise_map.mp hranges
  refine ⟨fun s hs => ?_, (pairwise_ofRanges 0 ranges).and hbefore, fun i hi => ?_, fun s hs => ?_,
    fun n => ?_⟩
  · exact h.whole _ (hmem s (List.mem_toArray.mp hs))
  · have hi : i < 0 + totalRows spans := by rw [Nat.zero_add]; exact hi
    obtain ⟨s, hs, hrow⟩ := exists_mem_ofRanges (Nat.zero_le i) hi
    exact ⟨s, List.mem_toArray.mpr hs, hrow⟩
  · have hle := (bounds_of_mem_ofRanges (List.mem_toArray.mp hs)).2
    rwa [Nat.zero_add] at hle
  · have hall : (∃ r ∈ ranges, InRange r n) ↔ ∃ s ∈ image.sections, Touches s n :=
      (h.inRange_iff n).trans (by simp only [Array.mem_toList_iff])
    refine Iff.trans ⟨?_, ?_⟩ hall
    · rintro ⟨s, hs, hn⟩
      exact ⟨_, hmem s (List.mem_toArray.mp hs), hn⟩
    · rintro ⟨r, hr, hn⟩
      rw [← hmap] at hr
      obtain ⟨s, hs, rfl⟩ := List.mem_map.mp hr
      exact ⟨s, List.mem_toArray.mpr hs, hn⟩

/-- **The hex view of an image whose sections leave the last sixteen addresses alone.** -/
theorem spanned_build {machine : Option Machine} {order : ByteOrder} {entry : UInt64}
    {sections : List Section} {symbols : List Symbol}
    (hclear : ∀ s ∈ (Image.build machine order entry sections symbols).sections, s.Clear) :
    (build (Image.build machine order entry sections symbols)).Spanned := by
  have hbefore := Image.pairwise_before fun s hs => (hclear s hs).fits
  refine spanned_of_joined ?_
  rw [← Array.foldl_toList]
  have hjoined : Joined (#[] : Array (UInt64 × UInt64)).toList [] := joined_nil
  exact hjoined.foldl hbefore fun s hs =>
    ⟨hclear s (Array.mem_toList_iff.mp hs), Image.size_pos (Array.mem_toList_iff.mp hs)⟩

variable {v : HexView} {i j : Nat}

/-- A row is found in its span. -/
theorem Spanned.row_eq (h : v.Spanned) (hi : i < v.size) :
    ∃ s ∈ v.spans, s.firstRow ≤ i ∧ i < s.firstRow + s.rows
      ∧ v.row i = v.rowAt (s.start + UInt64.ofNat ((i - s.firstRow) * hexRowBytes)) i
      ∧ ∀ t ∈ v.spans, t.firstRow ≤ i →
        t = s ∨ t.firstRow + t.rows ≤ s.firstRow ∧ t.stop.toNat ≤ s.start.toNat := by
  obtain ⟨u, hu, hle, hlt⟩ := h.exists_span i hi
  have hfalling : Search.Falling (fun s : HexSpan => s.firstRow ≤ i) v.spans :=
    Search.falling_le (h.before.imp fun hst => Nat.le_of_add_right_le hst.1)
  rcases hlast : Search.last? (fun s : HexSpan => s.firstRow ≤ i) v.spans with _ | s
  · exact absurd hle (of_decide_eq_false (Search.last?_eq_none hfalling hlast u hu))
  · obtain ⟨hs, hsle, hall⟩ := Search.last?_eq_some hfalling h.before hlast
    have hall : ∀ t ∈ v.spans, t.firstRow ≤ i →
        t = s ∨ t.firstRow + t.rows ≤ s.firstRow ∧ t.stop.toNat ≤ s.start.toNat :=
      fun t ht hle => hall t ht (decide_eq_true hle)
    have hsle := of_decide_eq_true hsle
    refine ⟨s, hs, hsle, ?_, ?_, hall⟩
    · rcases hall u hu hle with rfl | hbefore
      · exact hlt
      · omega
    · rw [row, if_pos hi, hlast]

/-- The address of a row, in numbers that do not wrap. -/
theorem Spanned.address_toNat (h : v.Spanned) {s : HexSpan} (hs : s ∈ v.spans)
    (hlt : i < s.firstRow + s.rows) (hle : s.firstRow ≤ i) :
    (s.start + UInt64.ofNat ((i - s.firstRow) * hexRowBytes)).toNat
      = s.start.toNat + hexRowBytes * (i - s.firstRow) := by
  have hstop := (h.whole s hs).rows_mul
  have hbound := s.stop.toNat_lt
  rw [UInt64.toNat_add, UInt64.toNat_ofNat']
  simp only [hexRowBytes] at hstop ⊢
  omega

/-- **A row has sixteen addresses of its own**, and the next row begins behind them. -/
theorem Spanned.address_add_le (h : v.Spanned) (hij : i < j) (hj : j < v.size) :
    (v.row i).address.toNat + hexRowBytes ≤ (v.row j).address.toNat := by
  obtain ⟨s, hs, hsi, his, hrowi, -⟩ := h.row_eq (Nat.lt_trans hij hj)
  obtain ⟨t, ht, htj, hjt, hrowj, hall⟩ := h.row_eq hj
  rw [hrowi, hrowj]
  show (s.start + _).toNat + hexRowBytes ≤ (t.start + _).toNat
  rw [h.address_toNat hs his hsi, h.address_toNat ht hjt htj]
  have hstop := (h.whole s hs).rows_mul
  simp only [hexRowBytes] at hstop ⊢
  -- an earlier row is in the same span or in one before it
  rcases hall s hs (by omega) with rfl | ⟨-, hbefore⟩
  · omega
  · omega

/-- The rows begin at multiples of sixteen. -/
theorem Spanned.address_mod (h : v.Spanned) (hi : i < v.size) :
    (v.row i).address.toNat % hexRowBytes = 0 := by
  obtain ⟨s, hs, hsi, his, hrow, -⟩ := h.row_eq hi
  rw [hrow]
  show (s.start + _).toNat % hexRowBytes = 0
  rw [h.address_toNat hs his hsi, Nat.add_mul_mod_self_left]
  exact (h.whole s hs).first

/-- **Each row shows an address of a section.** -/
theorem Spanned.exists_showsByte (h : v.Spanned) (hi : i < v.size) :
    ∃ s ∈ v.image.sections, ∃ a, s.Covers a ∧ (v.row i).ShowsByte a := by
  have hmod := h.address_mod hi
  obtain ⟨s, hs, hsi, his, hrow, -⟩ := h.row_eq hi
  rw [hrow] at hmod ⊢
  have haddress := h.address_toNat hs his hsi
  have hstop := (h.whole s hs).rows_mul
  have hin : InRange (s.start, s.stop) (s.start.toNat + hexRowBytes * (i - s.firstRow)) := by
    simp only [InRange, hexRowBytes] at hstop ⊢
    omega
  obtain ⟨t, ht, a, ha, hline⟩ := (h.inRange_iff _).mp ⟨s, hs, hin⟩
  refine ⟨t, ht, a, ha, ?_⟩
  rw [← haddress] at hline
  simp only [Row.ShowsByte, rowAt, hexRowBytes] at hmod hline ⊢
  omega

/-- **Each address of a section is shown.** -/
theorem Spanned.exists_row (h : v.Spanned) {s : Section} (hs : s ∈ v.image.sections) {a : UInt64}
    (ha : s.Covers a) : ∃ i < v.size, (v.row i).ShowsByte a := by
  obtain ⟨t, ht, hle, hlt⟩ := (h.inRange_iff a.toNat).mpr ⟨s, hs, a, ha, rfl⟩
  have hle : t.start.toNat ≤ a.toNat := hle
  have hlt : a.toNat < t.stop.toNat := hlt
  have hstop := (h.whole t ht).rows_mul
  have hrows := h.rows_le t ht
  have hi : t.firstRow + (a.toNat - t.start.toNat) / hexRowBytes < v.size := by
    simp only [hexRowBytes] at hstop ⊢
    omega
  refine ⟨_, hi, ?_⟩
  obtain ⟨u, hu, hui, hiu, hrow, hall⟩ := h.row_eq hi
  rw [hrow]
  rcases hall t ht (Nat.le_add_right _ _) with rfl | ⟨hbefore, -⟩
  · show (t.start + _).toNat ≤ a.toNat ∧ a.toNat < (t.start + _).toNat + hexRowBytes
    rw [h.address_toNat ht hiu hui]
    simp only [hexRowBytes]
    omega
  · simp only [hexRowBytes] at hstop hui
    omega

/-! ## Columns -/

/-- How a row shows an address, by a cell of its hex column and a character of its ASCII column. -/
structure Depicts (image : Image) (a : UInt64) (cell : Text) (c : UInt8) : Prop where
  /-- A byte of a section by its digits, and by itself if it is printable. -/
  byte : ∀ s ∈ image.sections, s.Covers a →
    let b := s.bytes[a.toNat - s.start.toNat]?.getD 0
    cell = Text.hexByte b ∧ c = if 32 ≤ b ∧ b < 127 then b else Text.code '.'
  /-- Both are blank where there is no section. -/
  blank : (cell = "  " ∧ c = Text.code ' ') ↔ ∀ s ∈ image.sections, ¬ s.Covers a

/-- The columns of a row: the address, the cells with a space between them, and the characters. -/
structure HasColumns (r : Row) (digits : Nat) (cells : List Text) (ascii : Text) : Prop where
  tokens : r.tokens = addressColumn digits r.address
    ++ [{ kind := .bytes, text := [Text.code ' '].intercalate cells }, Token.punctuation "  ",
      { kind := .comment, text := ascii }]
  /-- A cell is two characters wide. -/
  width : ∀ cell ∈ cells, cell.length = 2

/-- A byte is never shown as a blank. -/
theorem hexByte_ne_blank (b : UInt8) : Text.hexByte b ≠ "  " := by
  intro heq
  have hdigit : Text.digitByte (b.toNat / 16) = 32 := (List.cons.inj heq).1
  have hlt : b.toNat / 16 < 16 := by
    have hb := b.toNat_lt
    omega
  have hbyte := @Text.toNat_digitByte (b.toNat / 16) (by omega)
  rw [hdigit] at hbyte
  have hspace : (32 : UInt8).toNat = 32 := rfl
  split at hbyte
  · omega
  · omega

variable {machine : Option Machine} {order : ByteOrder} {entry : UInt64}
variable {sections : List Section} {symbols : List Symbol}

/-- **What is shown of an address is what the image has there.** -/
theorem depicts_cells
    (hfits : ∀ s ∈ (Image.build machine order entry sections symbols).sections, s.Fits)
    (a : UInt64) :
    let image := Image.build machine order entry sections symbols
    Depicts image a (hexCell ((build image).byteAt a)) (asciiCell ((build image).byteAt a)) := by
  intro image
  have hfound : ∀ s, image.sectionFor a = some s ↔ s ∈ image.sections ∧ s.Covers a := fun _ =>
    Image.sectionFor_eq_some_iff_covers hfits
  have hbyte : (build image).byteAt a = (image.sectionFor a).map (·.byteAt a) := rfl
  rcases hsection : image.sectionFor a with _ | s
  · have hnone : ∀ s ∈ image.sections, ¬ s.Covers a := fun s hs ha => by
      have hsome := (hfound s).mpr ⟨hs, ha⟩
      exact absurd (hsection.symm.trans hsome) (by simp)
    rw [hbyte, hsection]
    exact ⟨fun s hs ha => absurd ha (hnone s hs), fun _ => hnone, fun _ => ⟨rfl, rfl⟩⟩
  · obtain ⟨hs, ha⟩ := (hfound s).mp hsection
    rw [hbyte, hsection]
    refine ⟨fun t ht hta => ?_, fun hblank => ?_, fun hnone => absurd ha (hnone s hs)⟩
    · obtain rfl := Option.some.inj (hsection.symm.trans ((hfound t).mpr ⟨ht, hta⟩))
      have hcontains := (hfits s hs).contains_iff_covers.mpr ha
      rw [← Section.offset_of_contains hcontains]
      exact ⟨rfl, rfl⟩
    · exact absurd hblank.1 (hexByte_ne_blank _)

theorem hasColumns_rowAt (v : HexView) (a : UInt64) (index : Nat) :
    let cells := (List.range hexRowBytes).map fun k => v.byteAt (a + UInt64.ofNat k)
    HasColumns (v.rowAt a index) (rowDigits v.image.machine) (cells.map hexCell)
      (cells.map asciiCell) := by
  refine ⟨rfl, fun cell hcell => ?_⟩
  obtain ⟨b, -, rfl⟩ := List.mem_map.mp hcell
  cases b with
  | none => rfl
  | some b => rfl

/--
**The hex view shows every byte of every section exactly once.**

Take an image whose sections all leave the last sixteen addresses alone. Each row of its hex view
has its place as index, its address is a multiple of sixteen, and the addresses ascend. Each address
of a section is shown by exactly one row, and each row shows an address of a section. The cell at
each offset of a row, and the character at that offset, depict the address so far behind that of the
row: the byte of the section that holds it, zero if that is not backed, and blanks if and only if no
section holds it.
-/
theorem bytes_shown_once
    (hclear : ∀ s ∈ (Image.build machine order entry sections symbols).sections, s.Clear) :
    let image := Image.build machine order entry sections symbols
    let v := build image
    (∀ i < v.size, (v.row i).index = i ∧ (v.row i).address.toNat % hexRowBytes = 0)
      ∧ (∀ i j, i < j → j < v.size → (v.row i).address < (v.row j).address)
      ∧ (∀ s ∈ image.sections, ∀ a, s.Covers a →
        ∃ i < v.size, (v.row i).ShowsByte a ∧ ∀ j < v.size, (v.row j).ShowsByte a → j = i)
      ∧ (∀ i < v.size, ∃ s ∈ image.sections, ∃ a, s.Covers a ∧ (v.row i).ShowsByte a)
      ∧ ∀ i < v.size, ∃ cells ascii,
        HasColumns (v.row i) (rowDigits image.machine) cells ascii
          ∧ cells.length = hexRowBytes ∧ ascii.length = hexRowBytes
          ∧ ∀ k < hexRowBytes, ∃ cell c, cells[k]? = some cell ∧ ascii[k]? = some c
            ∧ Depicts image ((v.row i).address + UInt64.ofNat k) cell c := by
  intro image v
  have h : v.Spanned := spanned_build hclear
  have hfits : ∀ s ∈ image.sections, s.Fits := fun s hs => (hclear s hs).fits
  refine ⟨fun i hi => ⟨?_, h.address_mod hi⟩, fun i j hij hj => ?_, fun s hs a ha => ?_,
    fun i hi => h.exists_showsByte hi, fun i hi => ?_⟩
  · obtain ⟨s, -, -, -, hrow, -⟩ := h.row_eq hi
    rw [hrow]
    rfl
  · have hle := h.address_add_le hij hj
    exact UInt64.lt_iff_toNat_lt.mpr (Nat.lt_of_lt_of_le (Nat.lt_add_of_pos_right (by decide)) hle)
  · obtain ⟨i, hi, hshows⟩ := h.exists_row hs ha
    refine ⟨i, hi, hshows, fun j hj hshows' => ?_⟩
    simp only [Row.ShowsByte] at hshows hshows'
    -- of two rows the later one begins behind the earlier one
    rcases Nat.lt_trichotomy i j with hij | rfl | hji
    · have hle := h.address_add_le hij hj
      omega
    · rfl
    · have hle := h.address_add_le hji hi
      omega
  · obtain ⟨s, -, -, -, hrow, -⟩ := h.row_eq hi
    rw [hrow]
    refine ⟨_, _, hasColumns_rowAt v _ i, by simp, by simp, fun k hk => ?_⟩
    exact ⟨_, _, by simp [hk]; rfl, by simp [hk]; rfl, depicts_cells hfits _⟩

/-- Two sections in one row, with a gap between them and bytes that are not backed at the end. -/
def neighbours : List Section :=
  [{ name := ".a", start := 0x1000, size := 4, permissions := {}, bytes := #[1, 2, 3, 4] },
    { name := ".b", start := 0x1008, size := 8, permissions := {}, bytes := #[5, 6] }]

theorem sections_build_neighbours :
    (Image.build none .little 0 neighbours []).sections = neighbours.toArray := by
  have hsorted : neighbours.mergeSort (fun s t => s.start ≤ t.start) = neighbours :=
    List.mergeSort_of_pairwise (by decide)
  show Image.sectionTable neighbours = _
  rw [Image.sectionTable, hsorted]
  decide

/-- They share the one row that there is. -/
theorem bytes_shown_once_neighbours :
    let image := Image.build none .little 0 neighbours []
    let v := build image
    (∀ s ∈ image.sections, s.Clear) ∧ v.size = 1
      ∧ ∃ i < v.size, (v.row i).ShowsByte 0x1003 ∧ (v.row i).ShowsByte 0x100f := by
  intro image v
  have hsections : image.sections = neighbours.toArray := sections_build_neighbours
  have hmem : ∀ s ∈ neighbours, s ∈ image.sections := fun s hs => by
    rw [hsections]
    exact List.mem_toArray.mpr hs
  have hclear : ∀ s ∈ image.sections, s.Clear := fun s hs => by
    rw [hsections] at hs
    exact (by decide : ∀ s ∈ neighbours, s.Clear) s (List.mem_toArray.mp hs)
  have hsize : v.size = 1 := by
    show (build image).size = 1
    simp only [build, hsections]
    decide
  obtain ⟨-, -, hshown, -⟩ := bytes_shown_once hclear
  obtain ⟨i, hi, hfirst, -⟩ := hshown _ (hmem _ List.mem_cons_self) 0x1003 (by decide)
  have hb := hmem _ (List.mem_cons_of_mem _ List.mem_cons_self)
  obtain ⟨j, hj, hsecond, -⟩ := hshown _ hb 0x100f (by decide)
  have hi' : i < v.size := hi
  have hj' : j < v.size := hj
  obtain rfl : i = j := by omega
  exact ⟨hclear, hsize, i, hi, hfirst, hsecond⟩

end HexView

end Disassembler
