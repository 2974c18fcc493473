import Disassembler.Proofs.Anchors
import Disassembler.Proofs.HexView

/-!
# What rows of undecoded bytes list

Bytes of the code that no sweep has decoded are shown in rows of their own. A gap is as many of them
as follow one another in a section, and that is said here of the image and the stream alone, without
the items of the listing. A row of a gap lists the bytes from its address up to the end of its line
of eight, or of the gap if that comes first, so the rows of a gap together list its bytes, each
once. The end of the last line of all wraps to zero, and nothing lies before that: the rows of the
last eight addresses are there, and list nothing.
-/

namespace Disassembler

/-! ## Columns of bytes -/

/-- The byte that two hexadecimal digits show. -/
def Text.pairValue (high low : UInt8) : UInt8 :=
  UInt8.ofNat (16 * (digitValue? high).getD 0 + (digitValue? low).getD 0)

theorem Text.pairValue_hexByte (b : UInt8) :
    pairValue (digitByte (b.toNat / 16)) (digitByte (b.toNat % 16)) = b := by
  have hb := b.toNat_lt
  have hhigh : digitValue? (digitByte (b.toNat / 16)) = some (b.toNat / 16) :=
    digitValue?_digitByte (by omega)
  have hlow : digitValue? (digitByte (b.toNat % 16)) = some (b.toNat % 16) :=
    digitValue?_digitByte (by omega)
  rw [pairValue, hhigh, hlow, Option.getD_some, Option.getD_some, Nat.div_add_mod,
    UInt8.ofNat_toNat]

/-- The bytes that a column lists, of two digits each, with something between two of them. -/
def Token.bytesIn : Text → List UInt8
  | high :: low :: _ :: rest => Text.pairValue high low :: bytesIn rest
  | [high, low] => [Text.pairValue high low]
  | [_] | [] => []

/-- **A column lists the bytes of which it was made.** -/
theorem Token.bytesIn_formatBytes (bs : List UInt8) : bytesIn (formatBytes bs) = bs := by
  induction bs with
  | nil => rfl
  | cons b bs ih =>
    cases bs with
    | nil => exact congrArg (fun b => [b]) (Text.pairValue_hexByte b)
    | cons c bs =>
      have hformat : formatBytes (b :: c :: bs)
          = Text.digitByte (b.toNat / 16) :: Text.digitByte (b.toNat % 16) :: 32
            :: formatBytes (c :: bs) := by
        simp [formatBytes, List.intercalate, Text.hexByte]
      rw [hformat, bytesIn, ih, Text.pairValue_hexByte]

namespace Row

/-- The column of bytes of a row. -/
def byteColumn (r : Row) : Text := (r.tokens.filter (·.kind = .bytes)).flatMap Token.text

/-- The bytes that the column lists. -/
def listed (r : Row) : List UInt8 := Token.bytesIn r.byteColumn

end Row

/-! ## Bytes of an image -/

namespace Image

/-- The byte at an address, zero where none is backed. -/
def byteAt (image : Image) (a : UInt64) : UInt8 := (image.bytesFrom a).head?.getD 0

/-- The bytes from one address up to another. -/
def bytesBetween (image : Image) (low high : Nat) : List UInt8 :=
  (List.range' low (high - low)).map fun n => image.byteAt (UInt64.ofNat n)

theorem length_bytesBetween (image : Image) (low high : Nat) :
    (image.bytesBetween low high).length = high - low := by
  rw [bytesBetween, List.length_map, List.length_range']

theorem bytesBetween_eq_nil (image : Image) {low high : Nat} (h : high ≤ low) :
    image.bytesBetween low high = [] := by
  rw [bytesBetween, Nat.sub_eq_zero_of_le h, List.range'_zero, List.map_nil]

theorem bytesBetween_append (image : Image) {low mid high : Nat} (hlow : low ≤ mid)
    (hhigh : mid ≤ high) :
    image.bytesBetween low mid ++ image.bytesBetween mid high = image.bytesBetween low high := by
  have hmid : low + 1 * (mid - low) = mid := by omega
  have hlength : mid - low + (high - mid) = high - low := by omega
  have hrange := @List.range'_append low (mid - low) (high - mid) 1
  rw [hmid, hlength] at hrange
  rw [bytesBetween, bytesBetween, bytesBetween, ← List.map_append, hrange]

/-- Bytes up to a first bound, and those from there up to a second one, whatever the bounds cut
off. -/
theorem bytesBetween_min_append (image : Image) (low high : Nat) {mid last : Nat}
    (h : mid ≤ last) :
    image.bytesBetween low (min high mid) ++ image.bytesBetween (max low mid) (min high last)
      = image.bytesBetween low (min high last) := by
  by_cases hhigh : high ≤ mid
  · have hnil : image.bytesBetween (max low mid) (min high last) = [] :=
      image.bytesBetween_eq_nil (by omega)
    have hmid : min high mid = min high last := by omega
    rw [hnil, List.append_nil, hmid]
  · by_cases hlow : low ≤ mid
    · have hmax : max low mid = mid := by omega
      have hmin : min high mid = mid := by omega
      rw [hmax, hmin, image.bytesBetween_append hlow (by omega)]
    · have hnil : image.bytesBetween low (min high mid) = [] :=
        image.bytesBetween_eq_nil (by omega)
      have hmax : max low mid = low := by omega
      rw [hnil, List.nil_append, hmax]

/-- The byte at an address is that of the section that is found there. -/
theorem byteAt_of_sectionFor {image : Image} {a : UInt64} {s : Section}
    (h : image.sectionFor a = some s) : image.byteAt a = s.byteAt a := by
  rw [byteAt, bytesFrom_of_sectionFor h, List.head?_drop, Array.getElem?_toList, Section.byteAt]

end Image

/-! ## Gaps -/

namespace Analysis

/-- The address is that of a byte of an entry. -/
def Decoded (an : Analysis) (n : Nat) : Prop :=
  ∃ i ∈ an.stream, i.address.toNat ≤ n ∧ n < i.reach

/-- Bytes of a section that no entry covers, as many as follow one another in it. -/
structure IsGapOf (an : Analysis) (s : Section) (low high : Nat) : Prop where
  start_le : s.start.toNat ≤ low
  lt : low < high
  le_stop : high ≤ s.start.toNat + s.size.toNat
  undecoded : ∀ n, low ≤ n → n < high → ¬ an.Decoded n
  left : low = s.start.toNat ∨ an.Decoded (low - 1)
  right : high = s.start.toNat + s.size.toNat ∨ an.Decoded high

/-- A gap in the code: from one address up to another. -/
def IsGap (an : Analysis) (low high : Nat) : Prop :=
  ∃ s ∈ an.image.sections, s.executable = true ∧ an.IsGapOf s low high

/-- A gap does not start inside another one. -/
theorem IsGapOf.low_le {an : Analysis} {s : Section} {low high low' high' : Nat}
    (h : an.IsGapOf s low high) (h' : an.IsGapOf s low' high') (hlt : low' < high) :
    low' ≤ low := by
  by_cases hle : low' ≤ low
  · exact hle
  · exfalso
    have hstart := h.start_le
    cases h'.left with
    | inl heq => omega
    | inr hdecoded => exact h.undecoded (low' - 1) (by omega) (by omega) hdecoded

/-- A gap does not end inside another one. -/
theorem IsGapOf.le_high {an : Analysis} {s : Section} {low high low' high' : Nat}
    (h : an.IsGapOf s low high) (h' : an.IsGapOf s low' high') (hlt : low < high') :
    high ≤ high' := by
  by_cases hle : high ≤ high'
  · exact hle
  · exfalso
    have hstop := h.le_stop
    cases h'.right with
    | inl heq => omega
    | inr hdecoded => exact h.undecoded high' (by omega) (by omega) hdecoded

/-- **Gaps of a section that have an address in common are one.** -/
theorem IsGapOf.unique {an : Analysis} {s : Section} {low high low' high' n : Nat}
    (h : an.IsGapOf s low high) (h' : an.IsGapOf s low' high') (hn : low ≤ n ∧ n < high)
    (hn' : low' ≤ n ∧ n < high') : low = low' ∧ high = high' := by
  have hlow := h.low_le h' (by omega)
  have hlow' := h'.low_le h (by omega)
  have hhigh := h.le_high h' (by omega)
  have hhigh' := h'.le_high h (by omega)
  exact ⟨by omega, by omega⟩

end Analysis

/-! ## Gaps among the items -/

namespace Item

variable {labelOf : UInt64 → Option Text} {s : Section} {stream : List Instruction}

theorem eq_of_mem_gapBetween {a b : UInt64} {item : Item} (h : item ∈ gapBetween s a b) :
    item = gap s a b := by
  unfold gapBetween at h
  split at h
  · exact List.mem_singleton.mp h
  · exact absurd h List.not_mem_nil

/-- A gap begins where the contents begin or an entry stops, and ends where an entry starts or the
section stops. -/
theorem edges_of_mem_contents {t : Section} {a start stop : UInt64}
    (h : gap t start stop ∈ (contents labelOf s a stream).1) :
    t = s ∧ (start = a ∨ ∃ i ∈ stream, i.stop = start)
      ∧ (stop = s.stop ∨ ∃ i ∈ stream, i.address = stop) := by
  induction stream generalizing a with
  | nil =>
    obtain ⟨rfl, rfl, rfl⟩ := gap.inj (eq_of_mem_gapBetween h)
    exact ⟨rfl, Or.inl rfl, Or.inl rfl⟩
  | cons i stream ih =>
    have hi : i ∈ i :: stream := List.mem_cons_self
    simp only [contents] at h
    split at h
    · rcases List.mem_append.mp h with hgap | hrest
      · obtain ⟨rfl, rfl, rfl⟩ := gap.inj (eq_of_mem_gapBetween hgap)
        exact ⟨rfl, Or.inl rfl, Or.inr ⟨i, hi, rfl⟩⟩
      · rcases List.mem_cons.mp hrest with hentry | hrest
        · exact Item.noConfusion hentry
        · obtain ⟨ht, hstart, hstop⟩ := ih hrest
          refine ⟨ht, ?_, ?_⟩
          · rcases hstart with hmax | ⟨j, hj, hjs⟩
            · -- the rest begins where the entry stops, or where the contents begin
              by_cases hle : a ≤ i.stop
              · exact Or.inr ⟨i, hi, (hmax.trans (if_pos hle)).symm⟩
              · exact Or.inl (hmax.trans (if_neg hle))
            · exact Or.inr ⟨j, List.mem_cons_of_mem i hj, hjs⟩
          · rcases hstop with hstop | ⟨j, hj, hjs⟩
            · exact Or.inl hstop
            · exact Or.inr ⟨j, List.mem_cons_of_mem i hj, hjs⟩
    · obtain ⟨rfl, rfl, rfl⟩ := gap.inj (eq_of_mem_gapBetween h)
      exact ⟨rfl, Or.inl rfl, Or.inl rfl⟩

end Item

/-- The first address of the last line of eight. -/
def lastLine : Nat := 2 ^ 64 - 8

namespace Listing

/-! ## What a row of a gap lists -/

theorem toNat_min (a b : UInt64) : (min a b).toNat = min a.toNat b.toNat := by
  show (if a ≤ b then a else b).toNat = min a.toNat b.toNat
  split
  · rename_i hle
    exact (Nat.min_eq_left (UInt64.le_iff_toNat_le.mp hle)).symm
  · rename_i hle
    have hlt := UInt64.lt_iff_toNat_lt.mp (UInt64.not_le.mp hle)
    exact (Nat.min_eq_right (Nat.le_of_lt hlt)).symm

/-- The end of what a row of a gap lists; at the last line it wraps to zero. -/
theorem gapRow_high_toNat {start stop : UInt64} {sub : Nat}
    (hsub : 8 * (start.toNat / 8 + sub) < 2 ^ 64) :
    (min stop ((UInt64.ofNat (Item.lineOf start + sub) + 1) * UInt64.ofNat gapRowBytes)).toNat
      = if 8 * (start.toNat / 8 + sub) < lastLine then
          min stop.toNat (8 * (start.toNat / 8 + sub) + 8)
        else 0 := by
  rw [toNat_min]
  have hline : ((UInt64.ofNat (Item.lineOf start + sub) + 1) * UInt64.ofNat gapRowBytes).toNat
      = (8 * (start.toNat / 8 + sub) + 8) % 2 ^ 64 := by
    simp only [UInt64.toNat_mul, UInt64.toNat_add, UInt64.toNat_ofNat', Item.lineOf, gapRowBytes,
      UInt64.toNat_one]
    omega
  rw [hline]
  by_cases hlast : 8 * (start.toNat / 8 + sub) < lastLine
  · rw [if_pos hlast]
    simp only [lastLine] at hlast
    omega
  · rw [if_neg hlast]
    simp only [lastLine] at hlast
    omega

variable {image : Image} {s : Section} {start stop : UInt64} {sub index : Nat}

/-- The bytes that a section shows between two addresses are those of the image, if it has them. -/
theorem shownBytes_eq {low high : UInt64}
    (h : ∀ a : UInt64, low ≤ a → a < high → image.byteAt a = s.byteAt a) :
    shownBytes s low high = image.bytesBetween low.toNat high.toNat := by
  rw [shownBytes, Image.bytesBetween, List.range'_eq_map_range, List.map_map]
  refine List.map_congr_left fun k hk => ?_
  have hk := List.mem_range.mp hk
  have hhigh := high.toNat_lt
  have haddress : UInt64.ofNat (low.toNat + k) = low + UInt64.ofNat k := by
    rw [UInt64.ofNat_add, UInt64.ofNat_toNat]
  have htoNat : (low + UInt64.ofNat k).toNat = low.toNat + k := by
    rw [← haddress, UInt64.toNat_ofNat', Nat.mod_eq_of_lt (by omega)]
  show s.byteAt (low + UInt64.ofNat k) = image.byteAt (UInt64.ofNat (low.toNat + k))
  rw [haddress]
  refine (h _ (UInt64.le_iff_toNat_le.mpr ?_) (UInt64.lt_iff_toNat_lt.mpr ?_)).symm
  · omega
  · omega

/-- **A row of a gap lists the bytes from its address up to the end of its line or of the gap**, but
none of the last line. -/
theorem gapRow_byteColumn (l : Listing) (index : Nat) (hpos : start.toNat < stop.toNat)
    (hsub : sub < (Item.gap s start stop).rows)
    (hbytes : ∀ a : UInt64, start ≤ a → a < stop → image.byteAt a = s.byteAt a) :
    (l.gapRow s start stop sub index).byteColumn
      = Token.formatBytes (image.bytesBetween (max start.toNat (8 * (start.toNat / 8 + sub)))
          (min (min stop.toNat lastLine) (8 * (start.toNat / 8 + sub) + 8))) := by
  rw [Item.rows_gap hpos] at hsub
  have hlow := l.gapRow_address_toNat s index hpos hsub
  have hstop := stop.toNat_lt
  have hhigh := @gapRow_high_toNat start stop sub (by omega)
  let low := max start (UInt64.ofNat (Item.lineOf start + sub) * UInt64.ofNat gapRowBytes)
  let high := min stop ((UInt64.ofNat (Item.lineOf start + sub) + 1) * UInt64.ofNat gapRowBytes)
  have hlow : low.toNat = max start.toNat (8 * (start.toNat / 8 + sub)) := hlow
  have hhigh : high.toNat = if 8 * (start.toNat / 8 + sub) < lastLine then
      min stop.toNat (8 * (start.toNat / 8 + sub) + 8) else 0 := hhigh
  have hcolumn : (l.gapRow s start stop sub index).byteColumn
      = Token.formatBytes (shownBytes s low high) := List.append_nil _
  have hshown : shownBytes s low high = image.bytesBetween low.toNat high.toNat := by
    refine shownBytes_eq fun a ha hlt => ?_
    have ha := UInt64.le_iff_toNat_le.mp ha
    have hlt := UInt64.lt_iff_toNat_lt.mp hlt
    refine hbytes a (UInt64.le_iff_toNat_le.mpr (by omega)) (UInt64.lt_iff_toNat_lt.mpr ?_)
    split at hhigh
    · omega
    · omega
  rw [hcolumn, hshown, hlow, hhigh]
  by_cases hlast : 8 * (start.toNat / 8 + sub) < lastLine
  · rw [if_pos hlast]
    simp only [lastLine] at hlast ⊢
    congr 2
    omega
  · rw [if_neg hlast, image.bytesBetween_eq_nil (Nat.zero_le _), image.bytesBetween_eq_nil]
    omega

/-- The rows of bytes with addresses from one up to another, in order. -/
def gapRows (l : Listing) (low high : Nat) : List Row :=
  ((List.range l.size).filter fun k => (l.row k).kind = .bytes
    ∧ low ≤ (l.row k).address.toNat ∧ (l.row k).address.toNat < high).map l.row

section Laid

variable {l : Listing} {m : Machine} {code : List Section} {stream : Array Instruction}
variable {labelOf : UInt64 → Option Text} {first : Nat}

/-- The row of a gap that lies so many rows behind the first one. -/
theorem Laid.row_of_gap_add (h : l.Laid m code stream labelOf) (hpos : start.toNat < stop.toNat)
    (hstarts : l.StartsAt m (.gap s start stop) first)
    (hsub : sub < (Item.gap s start stop).rows) :
    first + sub < l.size ∧ l.row (first + sub) = l.gapRow s start stop sub (first + sub) :=
  h.row_of_startsAt hstarts (getElem?_rowsOf_gap hpos hsub)

/-- **The rows of bytes that show addresses of a gap are the rows of the gap.** -/
theorem Laid.gapRows_eq (h : l.Laid m code stream labelOf)
    (hitem : .gap s start stop ∈ l.items) (hstarts : l.StartsAt m (.gap s start stop) first) :
    l.gapRows start.toNat stop.toNat = (List.range (Item.gap s start stop).rows).map fun sub =>
      l.gapRow s start stop sub (first + sub) := by
  have hpos : start.toNat < stop.toNat := h.content _ hitem rfl
  have hlast := h.row_of_gap_add hpos hstarts (Nat.sub_one_lt (Nat.ne_of_gt (Item.rows_pos _)))
  have hrows : 0 < (Item.gap s start stop).rows := Item.rows_pos _
  -- which rows those are
  have hiff : ∀ k < l.size, ((l.row k).kind = .bytes ∧ start.toNat ≤ (l.row k).address.toNat
      ∧ (l.row k).address.toNat < stop.toNat)
        ↔ first ≤ k ∧ k < first + (Item.gap s start stop).rows := by
    intro k hk
    constructor
    · intro hrow
      -- the address that a row of bytes shows leads back to the row
      have hback := h.rowFor_row hk (Or.inl hrow.1)
      have hcovers : (Item.gap s start stop).Covers (l.row k).address := ⟨rfl, hrow.2⟩
      rw [h.rowFor_of_covers hstarts hcovers] at hback
      have hlines := Item.linesBefore_lt_rows hcovers
      exact ⟨by omega, by omega⟩
    · intro hplace
      have hsub : k - first < (Item.gap s start stop).rows := by omega
      obtain ⟨-, hrow⟩ := h.row_of_gap_add hpos hstarts hsub
      rw [Nat.add_sub_cancel' hplace.1] at hrow
      obtain ⟨⟨-, hle, hlt⟩, -⟩ := l.gapRow_covers s hpos hsub
      rw [hrow]
      exact ⟨rfl, hle, hlt⟩
  have hfilter : ((List.range l.size).filter fun k => (l.row k).kind = .bytes
      ∧ start.toNat ≤ (l.row k).address.toNat ∧ (l.row k).address.toNat < stop.toNat)
        = List.range' first (Item.gap s start stop).rows := by
    have hcongr : ((List.range l.size).filter fun k => (l.row k).kind = .bytes
        ∧ start.toNat ≤ (l.row k).address.toNat ∧ (l.row k).address.toNat < stop.toNat)
          = (List.range l.size).filter fun k =>
            first ≤ k ∧ k < first + (Item.gap s start stop).rows :=
      List.filter_congr fun k hk => decide_eq_decide.mpr (hiff k (List.mem_range.mp hk))
    have hmin : min l.size (first + (Item.gap s start stop).rows) - first
        = (Item.gap s start stop).rows := by omega
    rw [hcongr, filter_range, hmin]
  rw [gapRows, hfilter, List.range'_eq_map_range, List.map_map]
  exact List.map_congr_left fun sub hsub =>
    (h.row_of_gap_add hpos hstarts (List.mem_range.mp hsub)).2

/-- **The rows of a gap together list its bytes**, but none of the last line. -/
theorem Laid.flatMap_listed_gapRows (h : l.Laid m code stream labelOf)
    (hitem : .gap s start stop ∈ l.items)
    (hbytes : ∀ a : UInt64, start ≤ a → a < stop → image.byteAt a = s.byteAt a) :
    (l.gapRows start.toNat stop.toNat).flatMap Row.listed
      = image.bytesBetween start.toNat (min stop.toNat lastLine) := by
  have hpos : start.toNat < stop.toNat := h.content _ hitem rfl
  obtain ⟨n, hn⟩ := Array.mem_iff_getElem?.mp hitem
  have hstarts := h.startsAt_firstRow hn
  -- the first rows list the bytes up to the line of the next row
  have hfirst : ∀ k ≤ (Item.gap s start stop).rows,
      ((List.range k).map fun sub => l.gapRow s start stop sub (l.firstRow n + sub)).flatMap
        Row.listed = image.bytesBetween start.toNat
          (min (min stop.toNat lastLine) (8 * (start.toNat / 8 + k))) := by
    intro k
    induction k with
    | zero =>
      intro _
      rw [List.range_zero, List.map_nil, List.flatMap_nil, image.bytesBetween_eq_nil]
      omega
    | succ k ih =>
      intro hk
      have hlisted : (l.gapRow s start stop k (l.firstRow n + k)).listed
          = image.bytesBetween (max start.toNat (8 * (start.toNat / 8 + k)))
            (min (min stop.toNat lastLine) (8 * (start.toNat / 8 + (k + 1)))) := by
        rw [Row.listed, l.gapRow_byteColumn _ hpos hk hbytes, Token.bytesIn_formatBytes]
        rfl
      rw [List.range_succ, List.map_append, List.flatMap_append, ih (Nat.le_of_succ_le hk),
        List.map_singleton, List.flatMap_singleton, hlisted, image.bytesBetween_min_append]
      omega
  rw [h.gapRows_eq hitem hstarts, hfirst _ (Nat.le_refl _)]
  rw [Item.rows_gap hpos]
  congr 1
  omega

end Laid

end Listing

/-! ## The gaps of an analysis -/

namespace Analysis

variable {c : Conditions} {config : Config} {machine : Option Machine} {order : ByteOrder}
variable {entry : UInt64} {sections : List Section} {symbols : List Symbol} {an : Analysis}
variable {s : Section} {start stop : UInt64}

/-- An item for a gap stands for a gap. -/
theorem isGapOf_of_mem_items
    (h : run c config (Image.build machine order entry sections symbols) = .ok an)
    (hends : ∀ s ∈ (Image.build machine order entry sections symbols).sections,
      s.start.toNat + s.size.toNat < 2 ^ 64) {records : Debug.Index}
    (hitem : .gap s start stop ∈ (Listing.build an records).items) :
    s ∈ an.image.sections ∧ s.executable = true ∧ an.IsGapOf s start.toNat stop.toNat := by
  have hlaid := laid_build h hends records
  have hsectioned := sectioned_of_run h hends
  have hplaced := (stream_within_code h).1.placed
  have hmem := Array.mem_toList_iff.mpr hitem
  rw [items_build h records] at hmem
  obtain ⟨t, ht, hcontents⟩ := hsectioned.exists_contents hmem rfl
  obtain ⟨hstart, hpos, hstop⟩ := (hsectioned.tiles ht).1.bounds.2 _ hcontents
  obtain ⟨rfl, hleft, hright⟩ := Item.edges_of_mem_contents hcontents
  obtain ⟨hs, hexec⟩ := List.mem_filter.mp ht
  have hstopNat := (hsectioned.fits s ht).stop_toNat
  rw [← image_eq_of_run h] at hs
  refine ⟨Array.mem_toList_iff.mp hs, hexec, hstart, hpos, hstop, ?_, ?_, ?_⟩
  · -- an entry that covers a byte of the gap would be the item of the gap
    intro n hle hlt hdecoded
    obtain ⟨i, hi, hlow, hhigh⟩ := hdecoded
    have hstopLt : stop.toNat < 2 ^ 64 := stop.toNat_lt
    have hlt : n < stop.toNat := hlt
    have hn : (UInt64.ofNat n).toNat = n := by
      rw [UInt64.toNat_ofNat', Nat.mod_eq_of_lt (by omega)]
    have hreach := (hplaced i (Array.mem_toList_iff.mpr hi)).stop_toNat
    have hentry := (hlaid.entry_mem i (records.symbolAt i.address)).mpr ⟨hi, rfl⟩
    have hgapCovers : (Item.gap s start stop).Covers (UInt64.ofNat n) := by
      refine ⟨rfl, ?_, ?_⟩
      · rw [hn]
        exact hle
      · rw [hn]
        exact hlt
    have hentryCovers : (Item.entry i (records.symbolAt i.address)).Covers (UInt64.ofNat n) := by
      refine ⟨rfl, ?_, ?_⟩
      · rw [hn]
        exact hlow
      · rw [hn]
        exact hreach ▸ hhigh
    exact Item.noConfusion (hlaid.eq_of_covers hitem hgapCovers hentry hentryCovers)
  · cases hleft with
    | inl heq => exact Or.inl (congrArg UInt64.toNat heq)
    | inr hentry =>
      obtain ⟨i, hi, heq⟩ := hentry
      have hi := List.mem_of_mem_filter hi
      have hreach := (hplaced i hi).stop_toNat
      have hlt := (hplaced i hi).address_lt
      refine Or.inr ⟨i, Array.mem_toList_iff.mp hi, ?_, ?_⟩
      · rw [← heq]
        omega
      · rw [← heq]
        omega
  · cases hright with
    | inl heq => exact Or.inl ((congrArg UInt64.toNat heq).trans hstopNat)
    | inr hentry =>
      obtain ⟨i, hi, heq⟩ := hentry
      have hi := List.mem_of_mem_filter hi
      have hlt := (hplaced i hi).address_lt
      exact Or.inr ⟨i, Array.mem_toList_iff.mp hi, Nat.le_of_eq (congrArg UInt64.toNat heq),
        heq ▸ hlt⟩

/-- **Every gap has its item.** -/
theorem exists_item_of_isGap
    (h : run c config (Image.build machine order entry sections symbols) = .ok an)
    (hends : ∀ s ∈ (Image.build machine order entry sections symbols).sections,
      s.start.toNat + s.size.toNat < 2 ^ 64) (records : Debug.Index) {low high : Nat}
    (hgap : an.IsGap low high) : ∃ s start stop, .gap s start stop ∈ (Listing.build an records).items
      ∧ low = start.toNat ∧ high = stop.toNat := by
  obtain ⟨s, hs, hexec, hgap⟩ := hgap
  have hlaid := laid_build h hends records
  have hsectioned := sectioned_of_run h hends
  have hlow := hgap.start_le
  have hlt := hgap.lt
  have hhigh := hgap.le_stop
  rw [image_eq_of_run h] at hs
  have hfits := hends s hs
  have hn : (UInt64.ofNat low).toNat = low := by
    rw [UInt64.toNat_ofNat', Nat.mod_eq_of_lt (by omega)]
  have hcode := List.mem_filter.mpr ⟨Array.mem_toList_iff.mpr hs, hexec⟩
  have hcontains : s.contains (UInt64.ofNat low) = true :=
    (hsectioned.fits s hcode).contains_iff.mpr ⟨by omega, by omega⟩
  -- the start of the gap is covered, and not by an entry
  obtain ⟨item, hitem, hcovers⟩ := (hlaid.covered (UInt64.ofNat low)).mpr ⟨s, hcode, hcontains⟩
  obtain ⟨hcontent, hle, hstop⟩ := hcovers
  rw [hn] at hle hstop
  cases item with
  | opening t => exact Bool.noConfusion hcontent
  | closing t => exact Bool.noConfusion hcontent
  | entry i label =>
    exfalso
    have hi := ((hlaid.entry_mem i label).mp hitem).1
    have hreach := ((stream_within_code h).1.placed i (Array.mem_toList_iff.mpr hi)).stop_toNat
    exact hgap.undecoded low (Nat.le_refl _) hlt ⟨i, hi, hle, hreach ▸ hstop⟩
  | gap t start stop =>
    have hle : start.toNat ≤ low := hle
    have hstop : low < stop.toNat := hstop
    obtain ⟨ht, htexec, htgap⟩ := isGapOf_of_mem_items h hends hitem
    rw [image_eq_of_run h] at ht
    have htcode := List.mem_filter.mpr ⟨Array.mem_toList_iff.mpr ht, htexec⟩
    have htlow := htgap.start_le
    have hthigh := htgap.le_stop
    have htcontains : t.contains (UInt64.ofNat low) = true :=
      (hsectioned.fits t htcode).contains_iff.mpr ⟨by omega, by omega⟩
    obtain rfl := Instruction.eq_of_contains hsectioned.fits hsectioned.before hcode htcode
      hcontains htcontains
    obtain ⟨heqLow, heqHigh⟩ := hgap.unique htgap ⟨Nat.le_refl _, hlt⟩ ⟨hle, hstop⟩
    exact ⟨s, start, stop, hitem, heqLow, heqHigh⟩

/-- The bytes of a gap are those of its section. -/
theorem byteAt_of_mem_items
    (h : run c config (Image.build machine order entry sections symbols) = .ok an)
    (hends : ∀ s ∈ (Image.build machine order entry sections symbols).sections,
      s.start.toNat + s.size.toNat < 2 ^ 64) {records : Debug.Index}
    (hitem : .gap s start stop ∈ (Listing.build an records).items) (a : UInt64) (hle : start ≤ a)
    (hlt : a < stop) : an.image.byteAt a = s.byteAt a := by
  obtain ⟨hs, -, hgap⟩ := isGapOf_of_mem_items h hends hitem
  have hlow := hgap.start_le
  have hhigh := hgap.le_stop
  have hle := UInt64.le_iff_toNat_le.mp hle
  have hlt := UInt64.lt_iff_toNat_lt.mp hlt
  rw [image_eq_of_run h] at hs ⊢
  exact Image.byteAt_of_sectionFor
    ((Image.sectionFor_eq_some_iff_covers hends).mpr ⟨hs, by omega, by omega⟩)

end Analysis

/-! ## What a listing shows of gaps -/

/-- The row lists the bytes of an image from its address up to the end of its line, or up to a limit
if that comes first. -/
def Row.ListsUpTo (r : Row) (image : Image) (limit : Nat) : Prop :=
  r.byteColumn = Token.formatBytes
    (image.bytesBetween r.address.toNat (min limit (8 * (r.address.toNat / 8) + 8)))

/-- The rows of undecoded bytes of a listing show all of them. Each has at least one byte and at most
eight, up to the end of its line or of its gap, and the rows of a gap together have all its bytes. -/
structure Listing.ShowsGaps (l : Listing) (an : Analysis) : Prop where
  row : ∀ k < l.size, (l.row k).kind = .bytes → ∃ low high, an.IsGap low high
    ∧ low ≤ (l.row k).address.toNat ∧ (l.row k).address.toNat < high
    ∧ (l.row k).ListsUpTo an.image high
    ∧ 1 ≤ (l.row k).listed.length ∧ (l.row k).listed.length ≤ 8
  rows : ∀ low high, an.IsGap low high →
    (l.gapRows low high).flatMap Row.listed = an.image.bytesBetween low high

namespace Analysis

variable {c : Conditions} {config : Config} {machine : Option Machine} {order : ByteOrder}
variable {entry : UInt64} {sections : List Section} {symbols : List Symbol} {an : Analysis}

/--
**Undecoded bytes are shown, but for those of the last line.**

Take an image that is built, all of whose sections end below `2 ^ 64`, and the listing of its
analysis. Each row of bytes shows an address of a gap, and lists the bytes of the image from there
up to the end of its line of eight or of the gap, as far as they lie before the last line of all.
The rows of a gap together list its bytes, each once and in order, as far as they lie before that
line. So the listing shows its gaps if and only if none of them has an address in the last line.
-/
theorem gaps_shown_iff
    (h : run c config (Image.build machine order entry sections symbols) = .ok an)
    (hends : ∀ s ∈ (Image.build machine order entry sections symbols).sections,
      s.start.toNat + s.size.toNat < 2 ^ 64) (records : Debug.Index) :
    let l := Listing.build an records
    (∀ k < l.size, (l.row k).kind = .bytes → ∃ low high, an.IsGap low high
        ∧ low ≤ (l.row k).address.toNat ∧ (l.row k).address.toNat < high
        ∧ (l.row k).ListsUpTo an.image (min high lastLine))
      ∧ (∀ low high, an.IsGap low high → (l.gapRows low high).flatMap Row.listed
        = an.image.bytesBetween low (min high lastLine))
      ∧ (l.ShowsGaps an ↔ ∀ low high, an.IsGap low high → high ≤ lastLine) := by
  intro l
  have hlaid := laid_build h hends records
  have hrow : ∀ k < l.size, (l.row k).kind = .bytes → ∃ low high, an.IsGap low high
      ∧ low ≤ (l.row k).address.toNat ∧ (l.row k).address.toNat < high
      ∧ (l.row k).ListsUpTo an.image (min high lastLine) := by
    intro k hk hkind
    obtain ⟨s, start, stop, first, sub, hitem, hpos, hstarts, rfl, hsub, hrow⟩ :=
      hlaid.exists_gap_of_kind hk hkind
    obtain ⟨hs, hexec, hgap⟩ := isGapOf_of_mem_items h hends hitem
    obtain ⟨⟨-, hle, hlt⟩, -⟩ := l.gapRow_covers s hpos hsub
    have hcolumn := l.gapRow_byteColumn (first + sub) hpos hsub
      (byteAt_of_mem_items h hends hitem)
    have haddress := l.gapRow_address_toNat s (first + sub) hpos (Item.rows_gap hpos ▸ hsub)
    have hline : (max start.toNat (8 * (start.toNat / 8 + sub))) / 8 = start.toNat / 8 + sub := by
      omega
    rw [hrow]
    refine ⟨start.toNat, stop.toNat, ⟨s, hs, hexec, hgap⟩, hle, hlt, ?_⟩
    rw [Row.ListsUpTo, hcolumn, haddress, hline]
  have hrows : ∀ low high, an.IsGap low high → (l.gapRows low high).flatMap Row.listed
      = an.image.bytesBetween low (min high lastLine) := by
    intro low high hgap
    obtain ⟨s, start, stop, hitem, rfl, rfl⟩ := exists_item_of_isGap h hends records hgap
    exact hlaid.flatMap_listed_gapRows hitem (byteAt_of_mem_items h hends hitem)
  refine ⟨hrow, hrows, ?_, ?_⟩
  · -- a gap that is shown is as long as what its rows list
    intro hshows low high hgap
    have hlength := congrArg List.length ((hshows.rows low high hgap).symm.trans (hrows low high hgap))
    rw [Image.length_bytesBetween, Image.length_bytesBetween] at hlength
    obtain ⟨s, -, -, hgap⟩ := hgap
    have hlt := hgap.lt
    omega
  · intro hbelow
    refine ⟨fun k hk hkind => ?_, fun low high hgap => ?_⟩
    · obtain ⟨low, high, hgap, hle, hlt, hlists⟩ := hrow k hk hkind
      have hhigh := hbelow low high hgap
      rw [Nat.min_eq_left hhigh] at hlists
      have hlength : (l.row k).listed.length = min high (8 * ((l.row k).address.toNat / 8) + 8)
          - (l.row k).address.toNat := by
        rw [Row.listed, hlists, Token.bytesIn_formatBytes, Image.length_bytesBetween]
      exact ⟨low, high, hgap, hle, hlt, hlists, by omega, by omega⟩
    · rw [hrows low high hgap, Nat.min_eq_left (hbelow low high hgap)]

/-- A gap of four bytes in one line. -/
theorem gaps_shown_iff_overlap : ∃ an, run {} {} overlapImage = .ok an
    ∧ (∀ s ∈ overlapImage.sections, s.start.toNat + s.size.toNat < 2 ^ 64)
    ∧ let l := Listing.build an { image := some overlapImage }
      (l.row 5).listed = [0x00, 0x00, 0x00, 0xc3] ∧ l.ShowsGaps an := by
  obtain ⟨an, han, hlisted⟩ : ∃ an, run {} {} overlapImage = .ok an
      ∧ ((Listing.build an { image := some overlapImage }).row 5).listed
        == [0x00, 0x00, 0x00, 0xc3] :=
    exists_ok_of_any (by decide +kernel)
  have hlow : ∀ s ∈ overlapImage.sections, s.start.toNat + s.size.toNat ≤ lastLine := by
    decide +kernel
  obtain ⟨-, -, hiff⟩ := gaps_shown_iff han overlapImage_ends { image := some overlapImage }
  refine ⟨an, han, overlapImage_ends, eq_of_beq hlisted, hiff.mpr fun low high hgap => ?_⟩
  obtain ⟨s, hs, -, hgap⟩ := hgap
  rw [image_eq_of_run han] at hs
  exact Nat.le_trans hgap.le_stop (hlow s hs)

/-- A return, and bytes behind it up to the last address but one. -/
def topCode : List Section :=
  [{ name := ".text", start := 0xfffffffffffffff0, size := 15
     permissions := { execute := true }
     bytes := #[0xc3, 1, 2, 3, 4, 5, 6, 7, 8, 9, 10, 11, 12, 13, 14] }]

/-- The image of that code. -/
def topImage : Image := Image.build (some .x86_64) .little 0xfffffffffffffff0 topCode []

/-- The last seven bytes have a row, and are not in it. -/
theorem last_line_blank : ∃ an, run {} {} topImage = .ok an
    ∧ (∀ s ∈ topImage.sections, s.start.toNat + s.size.toNat < 2 ^ 64)
    ∧ let l := Listing.build an {}
      (l.row 3).kind = .bytes ∧ (l.row 3).address = 0xfffffffffffffff8 ∧ (l.row 3).listed = []
        ∧ ¬ l.ShowsGaps an := by
  obtain ⟨an, han, hrow⟩ : ∃ an, run {} {} topImage = .ok an
      ∧ (let l := Listing.build an {}
        (l.size, (l.row 3).kind, (l.row 3).address, (l.row 3).listed)
          == (5, .bytes, 0xfffffffffffffff8, [])) = true :=
    exists_ok_of_any (by decide +kernel)
  have hends : ∀ s ∈ topImage.sections, s.start.toNat + s.size.toNat < 2 ^ 64 := by
    decide +kernel
  obtain ⟨hsize, hkind, haddress, hlisted⟩ : (Listing.build an {}).size = 5
      ∧ ((Listing.build an {}).row 3).kind = .bytes
      ∧ ((Listing.build an {}).row 3).address = 0xfffffffffffffff8
      ∧ ((Listing.build an {}).row 3).listed = [] := by
    simpa using hrow
  refine ⟨an, han, hends, hkind, haddress, hlisted, fun hshows => ?_⟩
  obtain ⟨-, -, -, -, -, -, hone, -⟩ := hshows.row 3 (by omega) hkind
  rw [hlisted] at hone
  exact absurd hone (by decide)

end Analysis

end Disassembler
