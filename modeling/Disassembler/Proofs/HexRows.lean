import Disassembler.Proofs.HexView

/-!
# The row of an address

The search for the row of an address looks for the last span that starts there or before, and asks
whether the address lies before the end of it. Rows that reach up to `2 ^ 64` end at zero, and no
address lies before that: the search takes such a span for one that ends in front of the address,
and answers with the first row of the next span or with the last row there is. That is right if the
span is the last one and has no second row, and wrong otherwise. So where no other span ends at
zero, rows and addresses lead to each other; and where the address of each row leads back to the
row, no other span does.
-/

namespace Disassembler

namespace HexSpan

/-- The first address of the last row of all. -/
def lastRow : UInt64 := 0xfffffffffffffff0

theorem lastRow_toNat : lastRow.toNat = UInt64.size - hexRowBytes := rfl

/-- Where the rows of a range end, `2 ^ 64` included. -/
def reach (r : UInt64 × UInt64) : Nat :=
  r.1.toNat + hexRowBytes * ((r.2 - r.1).toNat / hexRowBytes)

end HexSpan

namespace HexView

open HexSpan

/-- The addresses of the spans. -/
def ranges (v : HexView) : List (UInt64 × UInt64) := v.spans.toList.map fun s => (s.start, s.stop)

/-- The spans have their rows counted through. -/
structure Counted (v : HexView) : Prop where
  before : v.spans.toList.Pairwise fun s t => s.firstRow + s.rows ≤ t.firstRow
  exists_span : ∀ i < v.size, ∃ s ∈ v.spans, s.firstRow ≤ i ∧ i < s.firstRow + s.rows
  rows_le : ∀ s ∈ v.spans, s.firstRow + s.rows ≤ v.size

/-- Ranges with a row at least, in order of their starts. -/
structure Rising (ranges : List (UInt64 × UInt64)) : Prop where
  pos : ∀ r ∈ ranges, r.1.toNat < reach r
  starts : ranges.Pairwise fun r t => r.1.toNat ≤ t.1.toNat

theorem ranges_build (image : Image) :
    (build image).ranges = (image.sections.toList.foldl HexSpan.join #[]).toList := by
  rw [Array.foldl_toList]
  exact map_ofRanges 0 _

theorem counted_build (image : Image) : (build image).Counted where
  before := pairwise_ofRanges 0 _
  exists_span := by
    intro i hi
    obtain ⟨s, hs, hrow⟩ := exists_mem_ofRanges (Nat.zero_le i) (by rw [Nat.zero_add]; exact hi)
    exact ⟨s, List.mem_toArray.mpr hs, hrow⟩
  rows_le := by
    intro s hs
    have hle := (bounds_of_mem_ofRanges (List.mem_toArray.mp hs)).2
    rwa [Nat.zero_add] at hle

variable {v : HexView} {s t : HexSpan} {a : UInt64} {i k : Nat}

theorem mem_ranges (hs : s ∈ v.spans) : (s.start, s.stop) ∈ v.ranges :=
  List.mem_map_of_mem (Array.mem_toList_iff.mpr hs)

/-- A span has a row more for each sixteen addresses. -/
theorem reach_eq (s : HexSpan) :
    reach (s.start, s.stop) = s.start.toNat + hexRowBytes * s.rows := rfl

theorem Rising.rows_pos (h : Rising v.ranges) (hs : s ∈ v.spans) : 0 < s.rows := by
  have hlt := h.pos _ (mem_ranges hs)
  rw [reach_eq] at hlt
  exact Nat.pos_of_ne_zero fun hzero => by simp [hzero] at hlt

/-! ## Searching -/

theorem Rising.falling (h : Rising v.ranges) (a : UInt64) :
    Search.Falling (fun s : HexSpan => s.start ≤ a) v.spans :=
  Search.falling_le ((List.pairwise_map.mp h.starts).imp UInt64.le_iff_toNat_le.mpr)

/-- **A row is found by its place in a span.** -/
theorem Counted.row_add (h : v.Counted) (hs : s ∈ v.spans) (hk : k < s.rows) :
    (v.row (s.firstRow + k)).address = s.start + UInt64.ofNat (k * hexRowBytes) := by
  have hi : s.firstRow + k < v.size := Nat.lt_of_lt_of_le (by omega) (h.rows_le s hs)
  have hfalling : Search.Falling (fun t : HexSpan => t.firstRow ≤ s.firstRow + k) v.spans :=
    Search.falling_le (h.before.imp Nat.le_of_add_right_le)
  have hle : decide (s.firstRow ≤ s.firstRow + k) = true := decide_eq_true (Nat.le_add_right _ _)
  rcases hlast : Search.last? (fun t : HexSpan => t.firstRow ≤ s.firstRow + k) v.spans with _ | t
  · exact absurd (hle.symm.trans (Search.last?_eq_none hfalling hlast s hs)) (by decide)
  · obtain ⟨-, ht, hall⟩ := Search.last?_eq_some hfalling h.before hlast
    have ht := of_decide_eq_true ht
    rcases hall s hs hle with rfl | hbefore
    · rw [row, if_pos hi, hlast]
      simp only [rowAt, Nat.add_sub_cancel_left]
    · omega

/-- Where the search ends behind a span, it goes on to the next one or to the last row. -/
theorem rowFor_of_stop_le (h : v.Counted) (hrising : Rising v.ranges)
    (hlast : Search.last? (fun s : HexSpan => s.start ≤ a) v.spans = some t)
    (hstop : t.stop.toNat ≤ a.toNat) {R : HexSpan → HexSpan → Prop}
    (hR : v.spans.toList.Pairwise R) :
    (∃ w ∈ v.spans, R t w ∧ v.rowFor a = w.firstRow)
      ∨ v.rowFor a + 1 = v.size ∧ t.firstRow + t.rows = v.size := by
  have hfalling := hrising.falling a
  obtain ⟨ht, hta, hall⟩ := Search.last?_eq_some hfalling h.before hlast
  have hpos := hrising.rows_pos ht
  have hsize := h.rows_le t ht
  have hfilter : (some t).filter (fun s : HexSpan => a < s.stop) = none :=
    Option.filter_eq_none_iff.mpr fun s hs => by
      obtain rfl := Option.some.inj hs
      rw [decide_eq_true_eq, UInt64.lt_iff_toNat_lt]
      omega
  rcases hnext : Search.next? (fun s : HexSpan => s.start ≤ a) v.spans with _ | w
  · -- no span is behind this one, so it has the last row
    have hnone := Search.next?_eq_none hfalling hnext
    obtain ⟨u, hu, hle, hlt⟩ := h.exists_span (v.size - 1) (by omega)
    have hrow : v.rowFor a = v.size - 1 := by
      rw [Search.next?] at hnext
      unfold rowFor
      dsimp only
      rw [hlast, hfilter, hnext]
    refine Or.inr ?_
    rcases hall u hu (hnone u hu) with rfl | hbefore
    · omega
    · omega
  · have hrow : v.rowFor a = w.firstRow := by
      rw [Search.next?] at hnext
      unfold rowFor
      dsimp only
      rw [hlast, hfilter, hnext]
    have hw := (Search.next?_eq_some hfalling h.before hnext).1
    exact Or.inl ⟨w, hw, Search.rel_of_last?_of_next? hR hlast hnext, hrow⟩

/-! ## Ranges of whole rows -/

/-- Ranges of whole rows one behind the other. If one ends at zero, it has only the last row. -/
structure Stacked (ranges : List (UInt64 × UInt64)) : Prop where
  aligned : ∀ r ∈ ranges, r.1.toNat % hexRowBytes = 0
  pos : ∀ r ∈ ranges, r.1.toNat < reach r
  apart : ranges.Pairwise fun r t => reach r ≤ t.1.toNat
  stops : ∀ r ∈ ranges, r.2.toNat = reach r ∨ r = (lastRow, 0)

theorem reach_lastRow : reach (lastRow, 0) = UInt64.size := rfl

variable {ranges : List (UInt64 × UInt64)}

theorem Stacked.rising (h : Stacked ranges) : Rising ranges where
  pos := h.pos
  starts := h.apart.imp_of_mem fun hr _ hrt => Nat.le_trans (Nat.le_of_lt (h.pos _ hr)) hrt

theorem Stacked.reach_le (h : Stacked ranges) {r : UInt64 × UInt64} (hr : r ∈ ranges) :
    reach r ≤ UInt64.size := by
  rcases h.stops r hr with heq | rfl
  · rw [← heq]
    exact Nat.le_of_lt r.2.toNat_lt
  · exact Nat.le_of_eq reach_lastRow

/-- The address of a row, in numbers that do not wrap. -/
theorem Stacked.address_toNat (h : Stacked v.ranges) (hs : s ∈ v.spans) (hk : k < s.rows) :
    (s.start + UInt64.ofNat (k * hexRowBytes)).toNat = s.start.toNat + hexRowBytes * k := by
  have hreach := h.reach_le (mem_ranges hs)
  rw [reach_eq] at hreach
  rw [UInt64.toNat_add, UInt64.toNat_ofNat']
  simp only [hexRowBytes, UInt64.size] at hreach ⊢
  omega

/-- **An address of a span belongs to the row that shows it.** -/
theorem Stacked.rowFor_eq (h : Stacked v.ranges) (hcounted : v.Counted) (hs : s ∈ v.spans)
    (hle : s.start.toNat ≤ a.toNat) (hlt : a.toNat < reach (s.start, s.stop)) :
    v.rowFor a = s.firstRow + (a.toNat - s.start.toNat) / hexRowBytes := by
  have hfalling := h.rising.falling a
  have hapart : v.spans.toList.Pairwise fun s t => reach (s.start, s.stop) ≤ t.start.toNat :=
    List.pairwise_map.mp h.apart
  have hsa : decide (s.start ≤ a) = true := decide_eq_true (UInt64.le_iff_toNat_le.mpr hle)
  have hlast : Search.last? (fun s : HexSpan => s.start ≤ a) v.spans = some s := by
    rcases hlast : Search.last? (fun s : HexSpan => s.start ≤ a) v.spans with _ | t
    · exact absurd (hsa.symm.trans (Search.last?_eq_none hfalling hlast s hs)) (by decide)
    · obtain ⟨-, hta, hall⟩ := Search.last?_eq_some hfalling hapart hlast
      have hta := UInt64.le_iff_toNat_le.mp (of_decide_eq_true hta)
      rcases hall s hs hsa with rfl | hbehind
      · rfl
      · omega
  rcases h.stops _ (mem_ranges hs) with hstop | hlastRow
  · -- the search ends in the span
    have hfilter : (some s).filter (fun s : HexSpan => a < s.stop) = some s :=
      Option.filter_eq_some_iff.mpr ⟨rfl, decide_eq_true (UInt64.lt_iff_toNat_lt.mpr (by
        have hstop : s.stop.toNat = reach (s.start, s.stop) := hstop
        omega))⟩
    unfold rowFor
    dsimp only
    rw [hlast, hfilter]
    dsimp only
    rw [UInt64.toNat_sub_of_le _ _ (UInt64.le_iff_toNat_le.mpr hle)]
  · -- the span ends at zero, but has only the last row
    have hstart : s.start = lastRow := congrArg Prod.fst hlastRow
    have hzero : s.stop = 0 := congrArg Prod.snd hlastRow
    have hrows : s.rows = 1 := by
      rw [HexSpan.rows, hstart, hzero]
      rfl
    have hstop : s.stop.toNat ≤ a.toNat := by
      rw [hzero]
      exact Nat.zero_le _
    rcases rowFor_of_stop_le hcounted h.rising hlast hstop hapart with
      ⟨w, hw, hreach, -⟩ | ⟨hrow, hsize⟩
    · rw [hlastRow, reach_lastRow] at hreach
      exact absurd w.start.toNat_lt (Nat.not_lt.mpr hreach)
    · have ha := a.toNat_lt
      rw [hstart, lastRow_toNat] at hle ⊢
      simp only [hexRowBytes, UInt64.size] at hle ⊢
      omega

/-- **The address of a row leads back to the row.** -/
theorem Stacked.rowFor_row (h : Stacked v.ranges) (hcounted : v.Counted) (hi : i < v.size) :
    v.rowFor (v.row i).address = i := by
  obtain ⟨s, hs, hle, hlt⟩ := hcounted.exists_span i hi
  obtain ⟨k, rfl⟩ := Nat.exists_eq_add_of_le hle
  have hk : k < s.rows := by omega
  have haddress := h.address_toNat hs hk
  rw [hcounted.row_add hs hk, h.rowFor_eq hcounted hs (by omega)]
  · rw [haddress]
    simp only [hexRowBytes]
    omega
  · rw [reach_eq, haddress]
    simp only [hexRowBytes]
    omega

/-- **The row of an address of a span begins at most fifteen addresses before it.** -/
theorem Stacked.row_rowFor (h : Stacked v.ranges) (hcounted : v.Counted) (hs : s ∈ v.spans)
    (hle : s.start.toNat ≤ a.toNat) (hlt : a.toNat < reach (s.start, s.stop)) :
    (v.row (v.rowFor a)).address = alignDown a := by
  have haligned : s.start.toNat % hexRowBytes = 0 := h.aligned _ (mem_ranges hs)
  have hk : (a.toNat - s.start.toNat) / hexRowBytes < s.rows := by
    rw [reach_eq] at hlt
    simp only [hexRowBytes] at hlt ⊢
    omega
  rw [h.rowFor_eq hcounted hs hle hlt, hcounted.row_add hs hk]
  refine UInt64.toNat_inj.mp ?_
  rw [h.address_toNat hs hk, alignDown_toNat]
  simp only [hexRowBytes] at haligned ⊢
  omega

/-- An address is in a span if a row begins where its own row does. -/
theorem Stacked.exists_of_address_eq (h : Stacked v.ranges) (hcounted : v.Counted)
    (hrow : (v.row i).address = alignDown a) (ha : hexRowBytes ≤ a.toNat) :
    ∃ r ∈ v.ranges, r.1.toNat ≤ a.toNat ∧ a.toNat < reach r := by
  have hrow := congrArg UInt64.toNat hrow
  rw [alignDown_toNat] at hrow
  have hi : i < v.size := by
    refine Nat.lt_of_not_le fun hle => ?_
    rw [row, if_neg (Nat.not_lt.mpr hle)] at hrow
    have hzero : 0 = hexRowBytes * (a.toNat / hexRowBytes) := hrow
    simp only [hexRowBytes] at hzero ha
    omega
  obtain ⟨s, hs, hle, hlt⟩ := hcounted.exists_span i hi
  obtain ⟨k, rfl⟩ := Nat.exists_eq_add_of_le hle
  have hk : k < s.rows := by omega
  have haligned : s.start.toNat % hexRowBytes = 0 := h.aligned _ (mem_ranges hs)
  rw [hcounted.row_add hs hk, h.address_toNat hs hk] at hrow
  refine ⟨_, mem_ranges hs, ?_⟩
  rw [reach_eq]
  simp only [hexRowBytes] at hrow haligned ⊢
  omega

/-! ## Ranges that end at zero -/

/-- **A span that ends at zero is the last one, and has one row**, if the addresses of all rows lead
back to them. -/
theorem Rising.last_of_stop_eq_zero (h : Rising v.ranges) (hcounted : v.Counted)
    (hzero : v.ranges.Pairwise fun r t => r.2 = 0 → t.2 = 0)
    (hrows : ∀ i < v.size, v.rowFor (v.row i).address = i) (hs : s ∈ v.spans) (hstop : s.stop = 0) :
    s.firstRow + 1 = v.size ∧ s.rows = 1 := by
  have hpos := h.rows_pos hs
  have hsize := hcounted.rows_le s hs
  have haddress := hcounted.row_add hs hpos
  rw [Nat.add_zero, Nat.zero_mul] at haddress
  have hback := hrows s.firstRow (by omega)
  rw [haddress.trans (UInt64.add_zero s.start)] at hback
  -- the search finds the span, or one behind it that starts there as well
  have hfalling := h.falling s.start
  have hsa : decide (s.start ≤ s.start) = true := decide_eq_true (UInt64.le_refl _)
  have hboth := hcounted.before.and (List.pairwise_map.mp hzero)
  rcases hlast : Search.last? (fun t : HexSpan => t.start ≤ s.start) v.spans with _ | t
  · exact absurd (hsa.symm.trans (Search.last?_eq_none hfalling hlast s hs)) (by decide)
  · obtain ⟨ht, -, hall⟩ := Search.last?_eq_some hfalling hboth hlast
    have htpos := h.rows_pos ht
    have htstop : t.stop = 0 := by
      rcases hall s hs hsa with rfl | ⟨-, hzero⟩
      · exact hstop
      · exact hzero hstop
    have hst : s = t ∨ s.firstRow + s.rows ≤ t.firstRow := (hall s hs hsa).imp_right And.left
    have hle : t.stop.toNat ≤ s.start.toNat := by
      rw [htstop]
      exact Nat.zero_le _
    rcases rowFor_of_stop_le hcounted h hlast hle hcounted.before with
      ⟨w, -, htw, hrow⟩ | ⟨hrow, hend⟩
    · rcases hst with rfl | hst
      · omega
      · omega
    · rcases hst with rfl | hst
      · omega
      · omega

end HexView

end Disassembler
