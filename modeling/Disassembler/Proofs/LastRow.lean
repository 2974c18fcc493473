import Disassembler.Proofs.HexRows
import Disassembler.Proofs.Order

/-!
# Sections with addresses in the last row

The range of a section that has addresses in the last row of all ends at zero. If the section starts
there, then its rows are one span of the last row. If it starts further down, its span has more
rows, or it joins the span in front of it and does not lengthen it, since zero is less than any end.
And each further section, all of whose addresses are in the last row, adds a span for that row. So
rows and addresses agree if there is one such span, and every other row of the sections has been
there before.
-/

namespace Disassembler

namespace HexSpan

variable {s : Section} {ss : List Section} {a x : UInt64}

/-! ## Sections and the last row -/

/-- A section leaves the last row alone if it ends where that starts, or before. -/
theorem clear_iff : s.Clear ↔ s.start.toNat + s.size.toNat ≤ lastRow.toNat := by
  rw [Section.Clear, lastRow_toNat]
  simp only [hexRowBytes, UInt64.size]
  omega

theorem alignDown_eq_lastRow_iff : alignDown a = lastRow ↔ lastRow.toNat ≤ a.toNat := by
  have ha := a.toNat_lt
  rw [← UInt64.toNat_inj, alignDown_toNat, lastRow_toNat]
  simp only [hexRowBytes, UInt64.size] at ha ⊢
  omega

/-- The range of a section with addresses in the last row ends at zero. -/
theorem range_of_not_clear (hfits : s.Fits) (hs : ¬ s.Clear) :
    range s = (alignDown s.start, 0) := by
  have hstop : (s.stop + UInt64.ofNat (hexRowBytes - 1)).toNat
      = s.start.toNat + s.size.toNat + (hexRowBytes - 1) - UInt64.size := by
    have hfits' : s.start.toNat + s.size.toNat < UInt64.size := hfits
    rw [clear_iff, lastRow_toNat] at hs
    rw [UInt64.toNat_add, hfits.stop_toNat, UInt64.toNat_ofNat']
    simp only [hexRowBytes, UInt64.size] at hs hfits' ⊢
    omega
  refine Prod.ext rfl (UInt64.toNat_inj.mp ?_)
  have hfits : s.start.toNat + s.size.toNat < UInt64.size := hfits
  show (alignDown (s.stop + UInt64.ofNat (hexRowBytes - 1))).toNat = 0
  rw [alignDown_toNat, hstop]
  simp only [hexRowBytes, UInt64.size] at hfits ⊢
  omega

/-- A section that leaves the last row alone touches only rows before it. -/
theorem lt_of_touches {n : Nat} (hs : s.Clear) (h : Touches s n) : n < lastRow.toNat := by
  obtain ⟨a, ha, hrow⟩ := h
  rw [clear_iff, lastRow_toNat] at hs
  rw [lastRow_toNat]
  simp only [Section.Covers, hexRowBytes, UInt64.size] at ha hrow hs ⊢
  omega

/-- It touches the row before that if it ends behind the start of that. -/
theorem touches_iff_lt_stop {n : Nat} (hs : s.Clear) (hpos : 0 < s.size.toNat)
    (hn : n < lastRow.toNat) (hle : lastRow.toNat ≤ n + hexRowBytes) :
    Touches s n ↔ lastRow.toNat < s.start.toNat + s.size.toNat + hexRowBytes := by
  rw [clear_iff, lastRow_toNat] at hs
  rw [lastRow_toNat] at hn hle ⊢
  simp only [Touches, Section.Covers, hexRowBytes, UInt64.size] at hs hn hle ⊢
  constructor
  · rintro ⟨a, ha, hrow⟩
    omega
  · -- the last address of the section is in the row
    intro hstop
    have hbound : s.start.toNat + s.size.toNat - 1 < UInt64.size := by
      rw [UInt64.size]
      omega
    refine ⟨UInt64.ofNatLT _ hbound, ?_⟩
    rw [UInt64.toNat_ofNatLT]
    omega

/-! ## Ranges and the last row -/

/-- The ranges of sections that leave the last row alone end where it starts, or before. -/
theorem Joined.stop_le {ranges : List (UInt64 × UInt64)} (h : Joined ranges ss)
    (hclear : ∀ s ∈ ss, s.Clear) {r : UInt64 × UInt64} (hr : r ∈ ranges) :
    r.2.toNat ≤ lastRow.toNat := by
  have hwhole := h.whole r hr
  have hpos := hwhole.pos
  have hlast := hwhole.last
  -- the last row of the range is touched by a section
  obtain ⟨s, hs, a, ha, hrow⟩ := (h.inRange_iff (r.2.toNat - 1)).mp ⟨r, hr, by omega, by omega⟩
  have hle := clear_iff.mp (hclear s hs)
  rw [lastRow_toNat] at hle ⊢
  simp only [Section.Covers, hexRowBytes, UInt64.size] at ha hrow hlast hle ⊢
  omega

/-- A range that ends at zero is added behind those that it does not reach into. -/
theorem join_of_range_eq (ranges : Array (UInt64 × UInt64)) (hs : range s = (x, 0)) :
    (join ranges s).toList = ranges.toList ++ [(x, 0)] ∧ x ≠ 0
        ∧ (∀ front r, ranges.toList = front ++ [r] → r.2 ≤ x)
      ∨ (join ranges s).toList = ranges.toList
        ∧ (x ≠ 0 → ∃ r ∈ ranges.toList, x < r.2) := by
  by_cases hx : x = 0
  · refine Or.inr ⟨?_, fun hne => absurd hx hne⟩
    unfold join
    dsimp only
    rw [hs, if_pos hx]
  · have hne : (range s).1 ≠ (range s).2 := by rwa [hs]
    rcases join_cases ranges hne with ⟨front, first, last, hranges, hlt, hjoin⟩ | ⟨hbehind, hjoin⟩
    · -- zero is less than any end, so the range that is there stays as it is
      rw [hs] at hlt hjoin
      have hmax : max last 0 = last := by
        refine UInt64.toNat_inj.mp ?_
        rw [toNat_max]
        exact Nat.max_eq_left (Nat.zero_le _)
      rw [hmax] at hjoin
      refine Or.inr ⟨hjoin.trans hranges.symm, fun _ => ⟨(first, last), ?_, hlt⟩⟩
      rw [hranges]
      exact List.mem_append_right _ (List.mem_singleton_self _)
    · rw [hs] at hbehind hjoin
      exact Or.inl ⟨hjoin, hx, hbehind⟩

/-- Each section that starts in the last row adds a range. -/
theorem foldl_join_lastRow (hs : ∀ s ∈ ss, range s = (lastRow, 0))
    (ranges : Array (UInt64 × UInt64)) (hranges : ∀ r ∈ ranges.toList, r.2.toNat ≤ lastRow.toNat) :
    (ss.foldl join ranges).toList
      = ranges.toList ++ List.replicate ss.length (lastRow, 0) := by
  induction ss generalizing ranges with
  | nil => simp
  | cons s rest ih =>
    obtain ⟨hrange, hrest⟩ := List.forall_mem_cons.mp hs
    have hjoin : (join ranges s).toList = ranges.toList ++ [(lastRow, 0)] := by
      rcases join_of_range_eq ranges hrange with ⟨hjoin, -⟩ | ⟨-, hover⟩
      · exact hjoin
      · obtain ⟨r, hr, hlt⟩ := hover (by decide)
        exact absurd (hranges r hr) (Nat.not_le.mpr (UInt64.lt_iff_toNat_lt.mp hlt))
    have hends : ∀ r ∈ (join ranges s).toList, r.2.toNat ≤ lastRow.toNat := by
      intro r hr
      rw [hjoin] at hr
      rcases List.mem_append.mp hr with hr | hr
      · exact hranges r hr
      · rw [List.mem_singleton.mp hr]
        exact Nat.zero_le _
    rw [List.foldl_cons, ih hrest _ hends, hjoin, List.length_cons, List.replicate_succ,
      List.append_assoc, List.singleton_append]

/-- Whole rows end where their range does. -/
theorem reach_of_whole {r : UInt64 × UInt64} (h : Whole r) : reach r = r.2.toNat :=
  (@Whole.rows_mul { firstRow := 0, start := r.1, stop := r.2 } h).symm

theorem toNat_zero_sub (hx : x ≠ 0) : (0 - x).toNat = UInt64.size - x.toNat := by
  have hpos : x.toNat ≠ 0 := fun hzero => hx (UInt64.toNat_inj.mp hzero)
  have hlt := x.toNat_lt
  rw [UInt64.toNat_sub]
  simp only [UInt64.size, UInt64.toNat_zero] at hlt ⊢
  omega

theorem reach_of_zero (hx : x ≠ 0) (haligned : x.toNat % hexRowBytes = 0) :
    reach (x, 0) = UInt64.size := by
  have hlt := x.toNat_lt
  rw [reach, toNat_zero_sub hx]
  simp only [hexRowBytes, UInt64.size] at haligned hlt ⊢
  omega

/-- A range of one row that ends at zero is that of the last row. -/
theorem eq_lastRow_of_rows (hx : x ≠ 0) (haligned : x.toNat % hexRowBytes = 0)
    (hrows : (0 - x).toNat / hexRowBytes = 1) : x = lastRow := by
  have hlt := x.toNat_lt
  rw [toNat_zero_sub hx] at hrows
  refine UInt64.toNat_inj.mp ?_
  rw [lastRow_toNat]
  simp only [hexRowBytes, UInt64.size] at haligned hlt hrows ⊢
  omega

/-- Ranges end where the last of them does, or before. -/
theorem Joined.stop_le_of_last {ranges : List (UInt64 × UInt64)} (h : Joined ranges ss)
    (hlast : ∀ front r, ranges = front ++ [r] → r.2 ≤ x) {r : UInt64 × UInt64} (hr : r ∈ ranges) :
    r.2.toNat ≤ x.toNat := by
  obtain ⟨front, last, rfl⟩ : ∃ front last, ranges = front ++ [last] :=
    ⟨_, _, (List.dropLast_concat_getLast (List.ne_nil_of_mem hr)).symm⟩
  have hle := UInt64.le_iff_toNat_le.mp (hlast front last rfl)
  obtain ⟨hfront, -, hwhole, -⟩ := joined_concat.mp h
  have hpos := hwhole.pos
  rcases List.mem_append.mp hr with hr | hr
  · have hbefore := (hfront r hr).2
    omega
  · rwa [List.mem_singleton.mp hr]

/-- Sections in order of which some have addresses in the last row: those in front of these, the
first of these, and the others. -/
structure Topped (clear : List Section) (t : Section) (late : List Section) : Prop where
  before : (clear ++ t :: late).Pairwise Section.Before
  fits : ∀ s ∈ clear ++ t :: late, s.Fits
  pos : ∀ s ∈ clear ++ t :: late, 0 < s.size.toNat
  clear : ∀ s ∈ clear, s.Clear
  not_clear : ¬ t.Clear

/-- Their ranges: those of the sections in front, and the one that the first of the others adds,
unless it joins them. -/
structure TopRanges (clear : List Section) (t : Section)
    (whole front : List (UInt64 × UInt64)) : Prop where
  joined : Joined whole clear
  stop_le : ∀ r ∈ whole, r.2.toNat ≤ lastRow.toNat
  front_eq : front = [(alignDown t.start, 0)] ∧ alignDown t.start ≠ 0
      ∧ (∀ r ∈ whole, r.2.toNat ≤ (alignDown t.start).toNat)
    ∨ front = [] ∧ t.start.toNat < lastRow.toNat

section Topped

variable {clear late : List Section} {t : Section} {whole front : List (UInt64 × UInt64)}

theorem Topped.lt_stop (h : Topped clear t late) :
    lastRow.toNat < t.start.toNat + t.size.toNat := by
  have ht := h.not_clear
  rw [clear_iff] at ht
  omega

/-- The others start behind the end of the first one, in the last row. -/
theorem Topped.stop_le_start (h : Topped clear t late) (hs : s ∈ late) :
    t.start.toNat + t.size.toNat ≤ s.start.toNat :=
  (List.pairwise_cons.mp (List.pairwise_append.mp h.before).2.1).1 s hs

theorem Topped.range_of_mem_late (h : Topped clear t late) (hs : s ∈ late) :
    range s = (lastRow, 0) := by
  have hmem : s ∈ clear ++ t :: late := by simp [hs]
  have hlt := h.lt_stop
  have hle := h.stop_le_start hs
  have hnot : ¬ s.Clear := by
    rw [clear_iff]
    omega
  rw [range_of_not_clear (h.fits s hmem) hnot, alignDown_eq_lastRow_iff.mpr (by omega)]

/-- **The ranges of sections of which some have addresses in the last row.** Each section behind
the first of these adds the last row. -/
theorem Topped.exists_ranges (h : Topped clear t late) :
    ∃ whole front, TopRanges clear t whole front
      ∧ ((clear ++ t :: late).foldl join #[]).toList
        = whole ++ (front ++ List.replicate late.length (lastRow, 0)) := by
  obtain ⟨hbefore, -, -⟩ := List.pairwise_append.mp h.before
  have hwhole : Joined (clear.foldl join #[]).toList clear := by
    have hjoined := @Joined.foldl #[] [] clear joined_nil hbefore
      fun s hs => ⟨h.clear s hs, h.pos s (List.mem_append_left _ hs)⟩
    exact hjoined
  have hstop : ∀ r ∈ (clear.foldl join #[]).toList, r.2.toNat ≤ lastRow.toNat :=
    fun r hr => hwhole.stop_le h.clear hr
  have hrange := range_of_not_clear (h.fits t (by simp)) h.not_clear
  have hfold := foldl_join_lastRow (fun s hs => h.range_of_mem_late hs)
    (join (clear.foldl join #[]) t)
  rw [List.foldl_append, List.foldl_cons]
  rcases join_of_range_eq (clear.foldl join #[]) hrange with ⟨hjoin, hne, hlast⟩ | ⟨hjoin, hover⟩
  · have hends : ∀ r ∈ (join (clear.foldl join #[]) t).toList, r.2.toNat ≤ lastRow.toNat := by
      intro r hr
      rw [hjoin] at hr
      rcases List.mem_append.mp hr with hr | hr
      · exact hstop r hr
      · rw [List.mem_singleton.mp hr]
        exact Nat.zero_le _
    refine ⟨_, [(alignDown t.start, 0)], ⟨hwhole, hstop, Or.inl ⟨rfl, hne, ?_⟩⟩, ?_⟩
    · exact fun r hr => hwhole.stop_le_of_last hlast hr
    · rw [hfold hends, hjoin, List.append_assoc]
  · refine ⟨_, [], ⟨hwhole, hstop, Or.inr ⟨rfl, ?_⟩⟩, ?_⟩
    · -- a section that starts in the last row reaches into nothing
      refine Nat.lt_of_not_le fun hle => ?_
      rw [alignDown_eq_lastRow_iff.mpr hle] at hover
      obtain ⟨r, hr, hlt⟩ := hover (by decide)
      exact absurd (hstop r hr) (Nat.not_le.mpr (UInt64.lt_iff_toNat_lt.mp hlt))
    · rw [hfold (hjoin ▸ hstop), hjoin, List.nil_append]

/-- The ranges that end at zero begin with a row behind all others. -/
theorem TopRanges.of_mem_tail (h : TopRanges clear t whole front) {n : Nat} {r : UInt64 × UInt64}
    (hr : r ∈ front ++ List.replicate n (lastRow, 0)) :
    r.2 = 0 ∧ r.1 ≠ 0 ∧ r.1.toNat % hexRowBytes = 0 ∧ ∀ u ∈ whole, u.2.toNat ≤ r.1.toNat := by
  rcases List.mem_append.mp hr with hr | hr
  · rcases h.front_eq with ⟨rfl, hne, hbehind⟩ | ⟨rfl, -⟩
    · obtain rfl := List.mem_singleton.mp hr
      refine ⟨rfl, hne, ?_, hbehind⟩
      rw [alignDown_toNat, Nat.mul_mod_right]
    · exact absurd hr List.not_mem_nil
  · obtain rfl := List.eq_of_mem_replicate hr
    exact ⟨rfl, by decide, rfl, h.stop_le⟩

theorem TopRanges.pairwise_tail (h : TopRanges clear t whole front) (n : Nat) :
    (front ++ List.replicate n (lastRow, 0)).Pairwise
      fun r u : UInt64 × UInt64 => r.1.toNat ≤ u.1.toNat := by
  have hrest : (List.replicate n (lastRow, (0 : UInt64))).Pairwise
      fun r u => r.1.toNat ≤ u.1.toNat :=
    List.pairwise_replicate.mpr (Or.inr (Nat.le_refl _))
  rcases h.front_eq with ⟨rfl, -⟩ | ⟨rfl, -⟩
  · refine List.pairwise_cons.mpr ⟨fun u hu => ?_, hrest⟩
    obtain rfl := List.eq_of_mem_replicate hu
    have hlt := t.start.toNat_lt
    rw [alignDown_toNat, lastRow_toNat]
    simp only [hexRowBytes, UInt64.size] at hlt ⊢
    omega
  · exact hrest

end Topped

end HexSpan

namespace HexView

open HexSpan

variable {v : HexView} {ss : List Section} {whole front tail : List (UInt64 × UInt64)}
variable {a : UInt64}

/-! ## Spans and the last row -/

theorem rising_append (h : Joined whole ss)
    (htail : ∀ r ∈ tail, r.2 = 0 ∧ r.1 ≠ 0 ∧ r.1.toNat % hexRowBytes = 0
      ∧ ∀ u ∈ whole, u.2.toNat ≤ r.1.toNat)
    (hstarts : tail.Pairwise fun r u => r.1.toNat ≤ u.1.toNat) : Rising (whole ++ tail) where
  pos := by
    intro r hr
    rcases List.mem_append.mp hr with hr | hr
    · rw [reach_of_whole (h.whole r hr)]
      exact (h.whole r hr).pos
    · obtain ⟨first, stop⟩ := r
      obtain ⟨rfl, hne, haligned, -⟩ := htail _ hr
      rw [reach_of_zero hne haligned]
      exact first.toNat_lt
  starts := by
    refine List.pairwise_append.mpr ⟨h.before.imp_of_mem fun {r u} hr _ hru => ?_, hstarts,
      fun r hr u hu => ?_⟩
    · exact Nat.le_trans (Nat.le_of_lt (h.whole r hr).pos) hru
    · exact Nat.le_trans (Nat.le_of_lt (h.whole r hr).pos) ((htail u hu).2.2.2 r hr)

theorem stacked_append (h : Joined whole ss) (hstop : ∀ r ∈ whole, r.2.toNat ≤ lastRow.toNat)
    (htail : tail = [] ∨ tail = [(lastRow, 0)]) : Stacked (whole ++ tail) := by
  have hwhole : Stacked whole := by
    refine ⟨fun r hr => (h.whole r hr).first, fun r hr => ?_, ?_, fun r hr => Or.inl ?_⟩
    · rw [reach_of_whole (h.whole r hr)]
      exact (h.whole r hr).pos
    · refine h.before.imp_of_mem fun {r u} hr _ hru => ?_
      rwa [reach_of_whole (h.whole r hr)]
    · rw [reach_of_whole (h.whole r hr)]
  rcases htail with rfl | rfl
  · rwa [List.append_nil]
  · have hall : ∀ {P : UInt64 × UInt64 → Prop}, (∀ r ∈ whole, P r) → P (lastRow, 0) →
        ∀ r ∈ whole ++ [(lastRow, 0)], P r := by
      intro P hfront hone r hr
      rcases List.mem_append.mp hr with hr | hr
      · exact hfront r hr
      · rwa [List.mem_singleton.mp hr]
    refine ⟨hall hwhole.aligned rfl, hall hwhole.pos (by decide), ?_,
      hall hwhole.stops (Or.inr rfl)⟩
    refine List.pairwise_append.mpr ⟨hwhole.apart, List.pairwise_singleton _ _, fun r hr u hu => ?_⟩
    rw [reach_of_whole (h.whole r hr), List.mem_singleton.mp hu]
    exact hstop r hr

/-- **At most one range ends at zero, and that is the last row**, if the addresses of all rows lead
back to them. -/
theorem tail_of_rows (hcounted : v.Counted) (hranges : v.ranges = whole ++ tail)
    (hrising : Rising (whole ++ tail)) (hwhole : ∀ r ∈ whole, r.2 ≠ 0)
    (htail : ∀ r ∈ tail, r.2 = 0 ∧ r.1 ≠ 0 ∧ r.1.toNat % hexRowBytes = 0)
    (hrows : ∀ i < v.size, v.rowFor (v.row i).address = i) :
    tail = [] ∨ tail = [(lastRow, 0)] := by
  have hzero : v.ranges.Pairwise fun r u => r.2 = 0 → u.2 = 0 := by
    obtain ⟨hfront, hback, -⟩ := List.pairwise_append.mp hrising.starts
    rw [hranges]
    refine List.pairwise_append.mpr ⟨?_, ?_, fun r _ u hu _ => (htail u hu).1⟩
    · exact hfront.imp_of_mem fun hr _ _ hr0 => absurd hr0 (hwhole _ hr)
    · exact hback.imp_of_mem fun _ hu _ _ => (htail _ hu).1
  rw [← hranges] at hrising
  have hlast : ∀ s ∈ v.spans, s.stop = 0 → s.firstRow + 1 = v.size ∧ s.rows = 1 :=
    fun s hs => hrising.last_of_stop_eq_zero hcounted hzero hrows hs
  rcases tail with _ | ⟨r, rest⟩
  · exact Or.inl rfl
  · obtain ⟨front, back, hspans, -, hback⟩ := List.map_eq_append_iff.mp hranges
    obtain ⟨s, back, rfl, rfl, hrest⟩ := List.map_eq_cons_iff.mp hback
    obtain ⟨⟨hstop, hne, haligned⟩, -⟩ := List.forall_mem_cons.mp htail
    have hstop : s.stop = 0 := hstop
    have hmem : ∀ u ∈ s :: back, u ∈ v.spans := fun u hu => by
      rw [← Array.mem_toList_iff, hspans]
      exact List.mem_append_right front hu
    obtain ⟨hsize, hone⟩ := hlast s (hmem s List.mem_cons_self) hstop
    have hnone : back = [] := by
      refine List.eq_nil_iff_forall_not_mem.mpr fun u hu => ?_
      -- another span behind this one would have a row behind the last one
      have hbefore := hcounted.before
      rw [hspans] at hbefore
      have hsu := (List.pairwise_cons.mp (List.pairwise_append.mp hbefore).2.1).1 u hu
      have hpos := hrising.rows_pos (hmem u (List.mem_cons_of_mem s hu))
      have hle := hcounted.rows_le u (hmem u (List.mem_cons_of_mem s hu))
      omega
    have hstart : s.start = lastRow := by
      refine eq_lastRow_of_rows hne haligned ?_
      rwa [HexSpan.rows, hstop] at hone
    rw [hnone] at hrest
    obtain rfl : [] = rest := hrest
    exact Or.inr (by rw [hstop, hstart])

/-! ## Rows and addresses -/

/-- Rows and addresses agree: the address of each row leads back to the row, and each address of a
section to the row that begins at its last multiple of sixteen. -/
structure Agrees (v : HexView) : Prop where
  rowFor_row : ∀ i < v.size, v.rowFor (v.row i).address = i
  row_rowFor : ∀ s ∈ v.image.sections, ∀ a, s.Covers a →
    (v.row (v.rowFor a)).address = alignDown a

/-- The row of an address is one of some sections, or it is the last row and has a range. -/
def IsShown (ss : List Section) (tail : List (UInt64 × UInt64)) (a : UInt64) : Prop :=
  (∃ s ∈ ss, Touches s a.toNat) ∨ tail = [(lastRow, 0)] ∧ lastRow.toNat ≤ a.toNat

theorem isShown_of_covers {s : Section} (hs : s ∈ ss) (ha : s.Covers a) : IsShown ss tail a :=
  Or.inl ⟨s, hs, a, ha, rfl⟩

theorem exists_range_iff (h : Joined whole ss) (htail : tail = [] ∨ tail = [(lastRow, 0)]) :
    (∃ r ∈ whole ++ tail, r.1.toNat ≤ a.toNat ∧ a.toNat < reach r) ↔ IsShown ss tail a := by
  have hfront : (∃ r ∈ whole, r.1.toNat ≤ a.toNat ∧ a.toNat < reach r)
      ↔ ∃ s ∈ ss, Touches s a.toNat := by
    rw [← h.inRange_iff]
    refine exists_congr fun r => and_congr_right fun hr => ?_
    rw [reach_of_whole (h.whole r hr)]
    rfl
  simp only [List.mem_append, or_and_right, exists_or, hfront]
  refine or_congr_right ?_
  rcases htail with rfl | rfl
  · simp
  · simp only [List.mem_singleton, exists_eq_left, reach_lastRow, true_and]
    exact and_iff_left a.toNat_lt

/-- Rows and addresses agree if the rows of all sections are shown. -/
theorem agrees_of_isShown (hcounted : v.Counted) (hranges : v.ranges = whole ++ tail)
    (h : Joined whole ss) (hstop : ∀ r ∈ whole, r.2.toNat ≤ lastRow.toNat)
    (htail : tail = [] ∨ tail = [(lastRow, 0)])
    (hshown : ∀ s ∈ v.image.sections, ∀ a, s.Covers a → IsShown ss tail a) : v.Agrees := by
  have hstacked := stacked_append h hstop htail
  rw [← hranges] at hstacked
  refine ⟨fun i hi => hstacked.rowFor_row hcounted hi, fun s hs a ha => ?_⟩
  obtain ⟨r, hr, hle, hlt⟩ := (exists_range_iff h htail).mpr (hshown s hs a ha)
  rw [← hranges] at hr
  obtain ⟨span, hspan, rfl⟩ := List.mem_map.mp hr
  exact hstacked.row_rowFor hcounted (Array.mem_toList_iff.mp hspan) hle hlt

/-- And only then, apart from the first row of all. -/
theorem Agrees.isShown (hagrees : v.Agrees) (hcounted : v.Counted)
    (hranges : v.ranges = whole ++ tail) (h : Joined whole ss)
    (hstop : ∀ r ∈ whole, r.2.toNat ≤ lastRow.toNat) (htail : tail = [] ∨ tail = [(lastRow, 0)])
    {s : Section} (hs : s ∈ v.image.sections) (ha : s.Covers a) (hle : hexRowBytes ≤ a.toNat) :
    IsShown ss tail a := by
  have hstacked := stacked_append h hstop htail
  rw [← hranges] at hstacked
  have hrange := hstacked.exists_of_address_eq hcounted (hagrees.row_rowFor s hs a ha) hle
  rw [hranges] at hrange
  exact (exists_range_iff h htail).mp hrange

section Image

variable {image : Image} {clear late : List Section} {t : Section}

/-- **Sections that leave the last row alone** agree with their rows. -/
theorem agrees_of_clear (hbefore : image.sections.toList.Pairwise Section.Before)
    (hpos : ∀ s ∈ image.sections, 0 < s.size.toNat) (hclear : ∀ s ∈ image.sections, s.Clear) :
    (build image).Agrees := by
  have hclear : ∀ s ∈ image.sections.toList, s.Clear := fun s hs =>
    hclear s (Array.mem_toList_iff.mp hs)
  have hjoined : Joined (image.sections.toList.foldl HexSpan.join #[]).toList
      image.sections.toList :=
    @Joined.foldl #[] [] image.sections.toList joined_nil hbefore fun s hs =>
      ⟨hclear s hs, hpos s (Array.mem_toList_iff.mp hs)⟩
  refine agrees_of_isShown (counted_build image) ?_ hjoined (fun r hr => hjoined.stop_le hclear hr)
    (Or.inl rfl) fun s hs a ha => isShown_of_covers (Array.mem_toList_iff.mpr hs) ha
  rw [ranges_build, List.append_nil]

theorem ranges_of_topped (hsections : image.sections.toList = clear ++ t :: late)
    (h : Topped clear t late) : ∃ whole front, TopRanges clear t whole front
      ∧ (build image).ranges = whole ++ (front ++ List.replicate late.length (lastRow, 0)) := by
  obtain ⟨whole, front, hranges, hfold⟩ := h.exists_ranges
  refine ⟨whole, front, hranges, ?_⟩
  rw [ranges_build, hsections, hfold]

/-- If a section has addresses in the last row, then rows and addresses agree only if it is the only
one and starts there, or if there is one more, and the other rows of this one were there before. -/
theorem Agrees.of_topped (hagrees : (build image).Agrees)
    (hsections : image.sections.toList = clear ++ t :: late) (h : Topped clear t late) :
    late = [] ∧ lastRow ≤ t.start
      ∨ late.length = 1 ∧ t.start < lastRow
        ∧ ∃ s ∈ clear, lastRow.toNat < s.start.toNat + s.size.toNat + hexRowBytes := by
  obtain ⟨whole, front, htop, hranges⟩ := ranges_of_topped hsections h
  have hcounted := counted_build image
  have htail := tail_of_rows hcounted hranges
    (rising_append htop.joined (fun r hr => htop.of_mem_tail hr) (htop.pairwise_tail late.length))
    (fun r hr hzero => absurd (htop.joined.whole r hr).pos (by simp [hzero]))
    (fun r hr => ⟨(htop.of_mem_tail hr).1, (htop.of_mem_tail hr).2.1, (htop.of_mem_tail hr).2.2.1⟩)
    hagrees.rowFor_row
  rcases htop.front_eq with ⟨rfl, -⟩ | ⟨rfl, hlt⟩
  · -- the range of the section is the only one that ends at zero
    rcases htail with hnil | hone
    · exact absurd hnil (by simp)
    · obtain ⟨hhead, hrest⟩ := List.cons.inj hone
      have hstart := alignDown_eq_lastRow_iff.mp (congrArg Prod.fst hhead)
      refine Or.inl ⟨?_, UInt64.le_iff_toNat_le.mpr hstart⟩
      exact List.length_eq_zero_iff.mp ((List.replicate_eq_nil_iff _).mp hrest)
  · -- the section has joined others, so one more shows the last row, and they the row before it
    have ht : t ∈ image.sections := by
      rw [← Array.mem_toList_iff, hsections]
      simp
    have hshown : ∀ a, t.Covers a → hexRowBytes ≤ a.toNat → IsShown clear _ a := fun a ha hle =>
      hagrees.isShown hcounted hranges htop.joined htop.stop_le htail ht ha hle
    have hstop := h.lt_stop
    have hlone : late.length = 1 := by
      rcases hshown lastRow ⟨Nat.le_of_lt hlt, by omega⟩ (by decide) with ⟨s, hs, hline⟩ | ⟨heq, -⟩
      · exact absurd (lt_of_touches (h.clear s hs) hline) (Nat.lt_irrefl _)
      · simpa using congrArg List.length heq
    refine Or.inr ⟨hlone, UInt64.lt_iff_toNat_lt.mpr hlt, ?_⟩
    have hlastButOne : (lastRow - 1).toNat = lastRow.toNat - 1 := rfl
    have hcovers : t.Covers (lastRow - 1) := by
      rw [Section.Covers, hlastButOne]
      omega
    rcases hshown (lastRow - 1) hcovers (by decide) with ⟨s, hs, hline⟩ | ⟨-, hle⟩
    · exact ⟨s, hs, (touches_iff_lt_stop (h.clear s hs) (h.pos s (List.mem_append_left _ hs))
        (by decide) (by decide)).mp hline⟩
    · exact absurd hle (by decide)

/-- One section in the last row adds the span of that. -/
theorem agrees_of_lone (hsections : image.sections.toList = clear ++ [t]) (h : Topped clear t [])
    (hstart : lastRow ≤ t.start) : (build image).Agrees := by
  obtain ⟨whole, front, htop, hranges⟩ := ranges_of_topped hsections h
  have hstart := UInt64.le_iff_toNat_le.mp hstart
  have hfront : front ++ List.replicate 0 (lastRow, 0) = [(lastRow, 0)] := by
    rcases htop.front_eq with ⟨rfl, -⟩ | ⟨-, hlt⟩
    · rw [alignDown_eq_lastRow_iff.mpr hstart]
      rfl
    · omega
  refine agrees_of_isShown (counted_build image) hranges htop.joined htop.stop_le (Or.inr hfront)
    fun s hs a ha => ?_
  have hs : s ∈ clear ++ [t] := hsections ▸ Array.mem_toList_iff.mpr hs
  rcases List.mem_append.mp hs with hs | hs
  · exact isShown_of_covers hs ha
  · obtain rfl := List.mem_singleton.mp hs
    exact Or.inr ⟨hfront, Nat.le_trans hstart ha.1⟩

/-- Of two such sections the second one does, if the first one has its rows from others. -/
theorem agrees_of_shared (hsections : image.sections.toList = clear ++ t :: late)
    (h : Topped clear t late) (hlone : late.length = 1) (hstart : t.start < lastRow) {s : Section}
    (hs : s ∈ clear)
    (hstop : lastRow.toNat < s.start.toNat + s.size.toNat + hexRowBytes) :
    (build image).Agrees := by
  obtain ⟨whole, front, htop, hranges⟩ := ranges_of_topped hsections h
  have hstart := UInt64.lt_iff_toNat_lt.mp hstart
  have htouches : ∀ {n}, n < lastRow.toNat → lastRow.toNat ≤ n + hexRowBytes → Touches s n :=
    fun hn hle => (touches_iff_lt_stop (h.clear s hs) (h.pos s (List.mem_append_left _ hs))
      hn hle).mpr hstop
  have hfront : front ++ List.replicate late.length (lastRow, 0) = [(lastRow, 0)] := by
    rcases htop.front_eq with ⟨-, -, hbehind⟩ | ⟨rfl, -⟩
    · -- the range of the other section ends where the last row starts
      obtain ⟨r, hr, -, hrlt⟩ := (htop.joined.inRange_iff (lastRow.toNat - 1)).mpr
        ⟨s, hs, htouches (by decide) (by decide)⟩
      have hle := hbehind r hr
      rw [alignDown_toNat] at hle
      simp only [hexRowBytes] at hle
      omega
    · rw [hlone]
      rfl
  refine agrees_of_isShown (counted_build image) hranges htop.joined htop.stop_le (Or.inr hfront)
    fun u hu a ha => ?_
  have hu : u ∈ clear ++ t :: late := hsections ▸ Array.mem_toList_iff.mpr hu
  rw [List.mem_append, List.mem_cons] at hu
  rcases Nat.lt_or_ge a.toNat lastRow.toNat with hlt | hge
  · have hfirst := ha.1
    rcases hu with hu | rfl | hu
    · exact isShown_of_covers hu ha
    · -- below the last row the section has addresses only in the row before it
      have hst : s.start.toNat + s.size.toNat ≤ u.start.toNat :=
        (List.pairwise_append.mp h.before).2.2 s hs u List.mem_cons_self
      exact Or.inl ⟨s, hs, htouches hlt (by omega)⟩
    · have hle := h.stop_le_start hu
      have hlast := h.lt_stop
      omega
  · exact Or.inr ⟨hfront, hge⟩

end Image

section Image

variable {machine : Option Machine} {order : ByteOrder} {entry : UInt64}
variable {sections : List Section} {symbols : List Symbol}

/--
**When the rows of the hex view and their addresses agree.**

Take an image whose sections all end below `2 ^ 64`. The address of each row leads back to the row,
and each address of a section leads to the row that begins at its last multiple of sixteen, exactly
in these cases: no section has addresses in the last row of all; or one has, and starts there; or
two have, and the first of them starts further down, where a section in front of it ends in the row
before the last one, and so has that row already.
-/
theorem agrees_iff
    (hfits : ∀ s ∈ (Image.build machine order entry sections symbols).sections, s.Fits) :
    let image := Image.build machine order entry sections symbols
    let high := image.sections.toList.filter fun s => ¬ s.Clear
    (build image).Agrees ↔ high = []
      ∨ (∃ t, high = [t] ∧ lastRow ≤ t.start)
      ∨ ∃ t u, high = [t, u] ∧ t.start < lastRow
        ∧ ∃ s ∈ image.sections, s.Clear
          ∧ lastRow.toNat < s.start.toNat + s.size.toNat + hexRowBytes := by
  intro image high
  have hbefore := Image.pairwise_before hfits
  have hpos : ∀ s ∈ image.sections, 0 < s.size.toNat := fun s hs => Image.size_pos hs
  have hsplit : image.sections.toList.filter (fun s => s.Clear) ++ high
      = image.sections.toList := by
    have hfalling : image.sections.toList.Pairwise fun s t : Section =>
        decide t.Clear = true → decide s.Clear = true := by
      refine hbefore.imp fun {s t} hst ht => ?_
      have hst : s.start.toNat + s.size.toNat ≤ t.start.toNat := hst
      rw [decide_eq_true_eq, clear_iff] at ht ⊢
      omega
    have hfilter := filter_append_filter_not hfalling
    simp only [← decide_not] at hfilter
    exact hfilter
  rcases hhigh : high with _ | ⟨t, late⟩
  · refine iff_of_true (agrees_of_clear hbefore hpos fun s hs => ?_) (Or.inl rfl)
    have hnone := List.filter_eq_nil_iff.mp hhigh s (Array.mem_toList_iff.mpr hs)
    simpa using hnone
  · rw [hhigh] at hsplit
    have hmem : ∀ s ∈ image.sections.toList.filter (fun s => s.Clear) ++ t :: late,
        s ∈ image.sections := fun s hs => by
      rw [hsplit] at hs
      exact Array.mem_toList_iff.mp hs
    have ht : ¬ t.Clear := by
      have hmem : t ∈ high := by
        rw [hhigh]
        exact List.mem_cons_self
      simpa using (List.mem_filter.mp hmem).2
    have htopped : Topped (image.sections.toList.filter fun s => s.Clear) t late := by
      refine ⟨?_, fun s hs => hfits s (hmem s hs), fun s hs => hpos s (hmem s hs),
        fun s hs => by simpa using (List.mem_filter.mp hs).2, ht⟩
      rw [hsplit]
      exact hbefore
    have hmemClear : ∀ s, s ∈ image.sections.toList.filter (fun s => s.Clear)
        ↔ s ∈ image.sections ∧ s.Clear := fun s => by
      rw [List.mem_filter, decide_eq_true_eq, Array.mem_toList_iff]
    constructor
    · intro hagrees
      rcases hagrees.of_topped hsplit.symm htopped with ⟨rfl, hle⟩ | ⟨hlone, hlt, s, hs, hstop⟩
      · exact Or.inr (Or.inl ⟨t, rfl, hle⟩)
      · obtain ⟨u, rfl⟩ := List.length_eq_one_iff.mp hlone
        obtain ⟨hs, hclear⟩ := (hmemClear s).mp hs
        exact Or.inr (Or.inr ⟨t, u, rfl, hlt, s, hs, hclear, hstop⟩)
    · rintro (hnil | ⟨u, heq, hle⟩ | ⟨u, w, heq, hlt, s, hs, hclear, hstop⟩)
      · exact absurd hnil (by simp)
      · obtain ⟨rfl, rfl⟩ := List.cons.inj heq
        exact agrees_of_lone hsplit.symm htopped hle
      · obtain ⟨rfl, rfl⟩ := List.cons.inj heq
        exact agrees_of_shared hsplit.symm htopped rfl hlt ((hmemClear s).mpr ⟨hs, hclear⟩) hstop

end Image

/-- Three sections, of which the second ends in the last row and shares the row before that with the
first, and the third starts in the last row. -/
def sharingSections : List Section :=
  [{ name := ".a", start := 0xffffffffffffffe0, size := 4, permissions := {}, bytes := #[] },
    { name := ".b", start := 0xffffffffffffffe8, size := 12, permissions := {}, bytes := #[] },
    { name := ".c", start := 0xfffffffffffffff4, size := 4, permissions := {}, bytes := #[] }]

/-- Sections in order need not be sorted. -/
theorem sections_build_of_pairwise {ss : List Section}
    (h : ss.Pairwise fun s t => decide (s.start ≤ t.start) = true) :
    (Image.build none .little 0 ss []).sections
      = Image.keepDisjoint #[] (ss.filter (·.size ≠ 0)) := by
  show Image.sectionTable ss = _
  rw [Image.sectionTable, List.mergeSort_of_pairwise h]

theorem sections_build_sharing :
    (Image.build none .little 0 sharingSections []).sections = sharingSections.toArray := by
  rw [sections_build_of_pairwise (by decide)]
  decide

/-- The last of them shows the row that the second one does not add. -/
theorem agrees_iff_sharing :
    (∀ s ∈ (Image.build none .little 0 sharingSections []).sections, s.Fits)
      ∧ (build (Image.build none .little 0 sharingSections [])).Agrees := by
  have hfits : ∀ s ∈ (Image.build none .little 0 sharingSections []).sections, s.Fits := by
    rw [sections_build_sharing]
    decide
  refine ⟨hfits, (agrees_iff hfits).mpr (Or.inr (Or.inr ?_))⟩
  rw [sections_build_sharing]
  refine ⟨_, _, rfl, by decide, _, List.mem_toArray.mpr List.mem_cons_self, by decide, by decide⟩

/-- A section that ends in the last row and starts in the row before it. -/
def raggedSections : List Section :=
  [{ name := "rom", start := 0xffffffffffffffe0, size := 31, permissions := {}, bytes := #[] }]

/-- It has two rows, and the address of the first leads to the second. -/
theorem ragged_section_misplaced :
    let v := build (Image.build none .little 0 raggedSections [])
    (∀ s ∈ v.image.sections, s.Fits) ∧ v.size = 2 ∧ (v.row 0).address = 0xffffffffffffffe0
      ∧ v.rowFor 0xffffffffffffffe0 = 1 ∧ ¬ v.Agrees := by
  intro v
  have hsections : (Image.build none .little 0 raggedSections []).sections
      = raggedSections.toArray := by
    rw [sections_build_of_pairwise (by decide)]
    decide
  have hspans : v.spans = #[{ firstRow := 0, start := 0xffffffffffffffe0, stop := 0 }] := by
    show (build _).spans = _
    rw [build, hsections]
    decide
  have hsize : v.size = 2 := by
    show (build _).size = _
    rw [build, hsections]
    decide
  have hrow : (v.row 0).address = 0xffffffffffffffe0 := by
    simp [row, rowAt, Search.last?, Search.endOf, Search.endFrom, hspans, hsize]
  have hfor : v.rowFor 0xffffffffffffffe0 = 1 := by
    simp [rowFor, Search.last?, Search.endOf, Search.endFrom, hspans, hsize, Option.filter_some]
  refine ⟨?_, hsize, hrow, hfor, fun hagrees => ?_⟩
  · show ∀ s ∈ (Image.build none .little 0 raggedSections []).sections, s.Fits
    rw [hsections]
    decide
  · have hback := hagrees.rowFor_row 0 (by omega)
    rw [hrow, hfor] at hback
    exact absurd hback (by decide)

end HexView

end Disassembler
