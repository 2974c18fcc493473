import Disassembler.Proofs.Places

/-!
# Rows for addresses

A view is put at an address, and the listing says at which row. In the code that is the row that
shows the address, or the first row of its entry; outside it is where the code goes on. The search
runs over items of which up to four start at one address, for sections may touch, and a row is then
counted in an item that may have any number of them. `linesBefore` is that count, and it is the same
for the address that a row shows and for the place of the row.
-/

namespace Disassembler

namespace Item

variable {item : Item} {a : UInt64}

/-- The rows of an item before the one to which an address belongs. An entry keeps its rows
together. -/
def linesBefore (a : UInt64) : Item → Nat
  | gap _ start _ => lineOf a - lineOf start
  | opening _ | closing _ | entry .. => 0

theorem linesBefore_lt_rows (h : item.Covers a) : item.linesBefore a < item.rows := by
  obtain ⟨-, hle, hlt⟩ := h
  cases item with
  | opening s => exact rows_pos _
  | closing s => exact rows_pos _
  | entry i label => exact rows_pos _
  | gap s start stop =>
    have hle : start.toNat ≤ a.toNat := hle
    have hlt : a.toNat < stop.toNat := hlt
    rw [rows_gap (by omega), linesBefore, lineOf, lineOf, gapRowBytes]
    omega

end Item

namespace Listing

variable {l : Listing} {m : Machine} {code : List Section} {stream : Array Instruction}
variable {labelOf : UInt64 → Option Text} {item : Item} {a : UInt64} {first : Nat}

/-! ## Where an address belongs -/

/-- The place is that of the first row of the entry of a stream that holds the address. The row is
the label of the entry if it has one. -/
def IsEntryRow (l : Listing) (m : Machine) (stream : Array Instruction)
    (labelOf : UInt64 → Option Text) (a : UInt64) (k : Nat) : Prop :=
  ∃ i ∈ stream, i.address ≤ a ∧ a < i.stop ∧ l.StartsAt m (.entry i (labelOf i.address)) k
    ∧ (l.row k).address = i.address
    ∧ ((l.row k).kind = .label ↔ (labelOf i.address).isSome = true)

/-- The place is that of the row of bytes that shows the line of the address, in the gap that holds
the address. -/
def IsLineRow (l : Listing) (m : Machine) (a : UInt64) (k : Nat) : Prop :=
  (∃ s start stop first, start ≤ a ∧ a < stop ∧ l.StartsAt m (.gap s start stop) first
      ∧ k = first + (a.toNat / 8 - start.toNat / 8))
    ∧ (l.row k).kind = .bytes ∧ (l.row k).address ≤ a
    ∧ (l.row k).address.toNat / 8 = a.toNat / 8

/-- The place is that of the first row of the nearest entry or gap that starts behind the address,
or of the last row of all if there is none. -/
def IsNextRow (l : Listing) (m : Machine) (a : UInt64) (k : Nat) : Prop :=
  (∃ item ∈ l.items, item.isContent = true ∧ a < item.address
      ∧ (∀ other ∈ l.items, other.isContent = true → a < other.address →
        item.address ≤ other.address)
      ∧ l.StartsAt m item k)
    ∨ (∀ item ∈ l.items, item.isContent = true → ¬ a < item.address) ∧ k + 1 = l.size

/-! ## What rows show -/

/-- A row of a gap shows the first address of the gap that lies in its line. -/
theorem gapRow_covers (l : Listing) (s : Section) {start stop : UInt64} {sub : Nat}
    (h : start.toNat < stop.toNat) (hsub : sub < (Item.gap s start stop).rows) :
    (Item.gap s start stop).Covers (l.gapRow s start stop sub 0).address
      ∧ (Item.gap s start stop).linesBefore (l.gapRow s start stop sub 0).address = sub := by
  rw [Item.rows_gap h] at hsub
  have haddress := l.gapRow_address_toNat s 0 h hsub
  refine ⟨⟨rfl, ?_, ?_⟩, ?_⟩
  · show start.toNat ≤ _
    omega
  · show _ < stop.toNat
    omega
  · rw [Item.linesBefore, Item.lineOf, Item.lineOf, gapRowBytes, haddress]
    omega

/-- Only gaps make rows of bytes. -/
theorem eq_gap_of_kind {sub : Nat} {r : Row} (hr : (l.rowsOf m item)[sub]? = some r)
    (hkind : r.kind = .bytes) : ∃ s start stop, item = .gap s start stop := by
  have hentry : ∀ i k, (l.entryRow m i k).kind ≠ .bytes := by
    intro i k
    rw [entryRow]
    split
    · exact RowKind.noConfusion
    · exact RowKind.noConfusion
  have hmem := List.mem_of_getElem? hr
  cases item with
  | opening s =>
    obtain rfl := List.mem_singleton.mp hmem
    exact RowKind.noConfusion hkind
  | closing s =>
    obtain rfl := List.mem_singleton.mp hmem
    exact RowKind.noConfusion hkind
  | entry i label =>
    cases label with
    | none =>
      obtain rfl := List.mem_singleton.mp hmem
      exact absurd hkind (hentry i 0)
    | some t =>
      rcases List.mem_cons.mp hmem with rfl | hmem
      · exact RowKind.noConfusion hkind
      · obtain rfl := List.mem_singleton.mp hmem
        exact absurd hkind (hentry i 0)
  | gap s start stop => exact ⟨s, start, stop, rfl⟩

/-- The first row of an entry has the address of the entry. It is that of a label exactly if the
entry has one. -/
theorem exists_entry_row (l : Listing) (m : Machine) (i : Instruction) (label : Option Text) :
    ∃ r, (l.rowsOf m (.entry i label))[0]? = some r ∧ r.address = i.address
      ∧ (r.kind = .label ↔ label.isSome = true) := by
  cases label with
  | none =>
    refine ⟨l.entryRow m i 0, rfl, rfl, ?_⟩
    rw [entryRow]
    cases i.isInvalid with
    | true => simp
    | false => simp
  | some t => exact ⟨l.labelRow i.address t 0, rfl, rfl, by simp [labelRow]⟩

/-! ## Addresses of the code -/

/-- **The row for an address that an item covers is counted from where its rows begin.** -/
theorem Laid.rowFor_of_covers (h : l.Laid m code stream labelOf) (hstarts : l.StartsAt m item first)
    (hcovers : item.Covers a) : l.rowFor a = first + item.linesBefore a := by
  obtain ⟨n, hitem, rfl⟩ := h.exists_of_startsAt hstarts
  have hn : l.itemAt a = some n := h.itemAt_eq_some_iff.mpr ⟨item, hitem, hcovers⟩
  rw [rowFor, hn]
  simp only [hitem]
  cases item with
  | opening s => exact Bool.noConfusion hcovers.1
  | closing s => exact Bool.noConfusion hcovers.1
  | entry i label => rfl
  | gap s start stop => rfl

theorem Laid.lt_size_of_startsAt (h : l.Laid m code stream labelOf)
    (hstarts : l.StartsAt m item first) {sub : Nat} (hsub : sub < item.rows) :
    first + sub < l.size := by
  obtain ⟨n, hitem, -⟩ := h.exists_of_startsAt hstarts
  have hlength := length_rowsOf h.machine (h.content item (Array.mem_of_getElem? hitem))
  rw [← hlength] at hsub
  exact (h.row_of_startsAt hstarts (List.getElem?_eq_getElem hsub)).1

/-- A row of a gap is counted to for the address that it shows, and for all of its line. -/
theorem Laid.row_of_gap (h : l.Laid m code stream labelOf) {s : Section} {start stop : UInt64}
    (hstarts : l.StartsAt m (.gap s start stop) first)
    (hcovers : (Item.gap s start stop).Covers a) :
    (l.row (l.rowFor a)).kind = .bytes ∧ (l.row (l.rowFor a)).address ≤ a
      ∧ (l.row (l.rowFor a)).address.toNat / 8 = a.toNat / 8 := by
  have hle : start.toNat ≤ a.toNat := hcovers.2.1
  have hlt : a.toNat < stop.toNat := hcovers.2.2
  have hpos : start.toNat < stop.toNat := Nat.lt_of_le_of_lt hle hlt
  have hsub := Item.linesBefore_lt_rows hcovers
  obtain ⟨-, hrow⟩ := h.row_of_startsAt hstarts (getElem?_rowsOf_gap hpos hsub)
  rw [← h.rowFor_of_covers hstarts hcovers] at hrow
  rw [Item.rows_gap hpos] at hsub
  have hlines : (Item.gap s start stop).linesBefore a = a.toNat / 8 - start.toNat / 8 := rfl
  have haddress : (l.row (l.rowFor a)).address.toNat
      = max start.toNat (8 * (start.toNat / 8 + (Item.gap s start stop).linesBefore a)) := by
    rw [hrow]
    exact l.gapRow_address_toNat s 0 hpos hsub
  refine ⟨?_, UInt64.le_iff_toNat_le.mpr ?_, ?_⟩
  · rw [hrow]
    rfl
  · rw [haddress, hlines]
    omega
  · rw [haddress, hlines]
    omega

theorem Laid.eq_of_covers (h : l.Laid m code stream labelOf) {other : Item}
    (hitem : item ∈ l.items) (hcovers : item.Covers a) (hother : other ∈ l.items)
    (hcovers' : other.Covers a) : item = other := by
  obtain ⟨n, hn⟩ := Array.mem_iff_getElem?.mp hitem
  obtain ⟨k, hk⟩ := Array.mem_iff_getElem?.mp hother
  have hfirst := h.itemAt_eq_some_iff.mpr ⟨item, hn, hcovers⟩
  have hsecond := h.itemAt_eq_some_iff.mpr ⟨other, hk, hcovers'⟩
  obtain rfl : n = k := Option.some.inj (hfirst.symm.trans hsecond)
  exact Option.some.inj (hn.symm.trans hk)

/-- **In the code the row is the first one of the entry that holds the address**, or the one that
shows its line of a gap. -/
theorem Laid.rowFor_of_contains (h : l.Laid m code stream labelOf)
    (ha : ∃ s ∈ code, s.contains a = true) :
    l.rowFor a < l.size
      ∧ (l.IsEntryRow m stream labelOf a (l.rowFor a)
        ∨ (∀ i ∈ stream, ¬ (i.address ≤ a ∧ a < i.stop)) ∧ l.IsLineRow m a (l.rowFor a)) := by
  obtain ⟨item, hitem, hcovers⟩ := (h.covered a).mpr ha
  obtain ⟨n, hn⟩ := Array.mem_iff_getElem?.mp hitem
  have hstarts := h.startsAt_firstRow hn
  have hrow := h.rowFor_of_covers hstarts hcovers
  refine ⟨hrow ▸ h.lt_size_of_startsAt hstarts (Item.linesBefore_lt_rows hcovers), ?_⟩
  have hle : item.address ≤ a := UInt64.le_iff_toNat_le.mpr hcovers.2.1
  have hlt : a < item.stop := UInt64.lt_iff_toNat_lt.mpr hcovers.2.2
  cases item with
  | opening s => exact Bool.noConfusion hcovers.1
  | closing s => exact Bool.noConfusion hcovers.1
  | entry i label =>
    left
    obtain ⟨hi, rfl⟩ := (h.entry_mem i label).mp hitem
    have hstarts : l.StartsAt m (.entry i (labelOf i.address)) (l.rowFor a) := hrow ▸ hstarts
    obtain ⟨r, hr, haddress, hkind⟩ := l.exists_entry_row m i (labelOf i.address)
    obtain ⟨-, hshown⟩ := h.row_of_startsAt hstarts hr
    have hshown : l.row (l.rowFor a) = { r with index := l.rowFor a } := hshown
    refine ⟨i, hi, hle, hlt, hstarts, ?_, ?_⟩
    · rw [hshown, ← haddress]
    · rw [hshown, ← hkind]
  | gap s start stop =>
    right
    refine ⟨fun i hi hcontains => ?_, ⟨s, start, stop, _, hle, hlt, hstarts, hrow⟩,
      h.row_of_gap hstarts hcovers⟩
    -- the entry would cover the address as well
    have hentry := (h.entry_mem i (labelOf i.address)).mpr ⟨hi, rfl⟩
    have hcovers' : (Item.entry i (labelOf i.address)).Covers a :=
      ⟨rfl, UInt64.le_iff_toNat_le.mp hcontains.1, UInt64.lt_iff_toNat_lt.mp hcontains.2⟩
    exact Item.noConfusion (h.eq_of_covers hitem hcovers hentry hcovers')

/-! ## Other addresses -/

/-- **Outside the code the row is the first one of the entry or gap that comes next**, or the last
row of all. -/
theorem Laid.rowFor_of_not_covers (h : l.Laid m code stream labelOf)
    (ha : ∀ item ∈ l.items, ¬ item.Covers a) : l.IsNextRow m a (l.rowFor a) := by
  -- the search goes on with the items that start behind the address
  have hbehind : ∀ k item, l.items[k]? = some item →
      (l.countFrom a ≤ k ↔ a < item.address) := by
    intro k item hitem
    rw [← Nat.not_lt, h.lt_countFrom_iff hitem, UInt64.lt_iff_toNat_lt, Nat.not_le]
  rw [rowFor, h.itemAt_eq_none ha]
  dsimp only
  generalize l.countFrom a = n at hbehind ⊢
  rcases hfind : (l.items.extract n l.items.size).findIdx? (·.isContent) with _ | j
  · -- no entry or gap starts behind the address
    right
    rw [hfind]
    refine ⟨fun item hitem hcontent hlt => ?_, ?_⟩
    · obtain ⟨k, hk⟩ := Array.mem_iff_getElem?.mp hitem
      have hnot := Search.findIdx?_extract_eq_none hfind ((hbehind k item hk).mpr hlt) hk
      exact Bool.noConfusion (hcontent.symm.trans hnot)
    · -- there is an item, so there is a last row
      have hitem := Array.getElem?_eq_getElem h.pos
      have hpos := h.lt_size_of_startsAt (h.startsAt_firstRow hitem) (Item.rows_pos _)
      show l.size - 1 + 1 = l.size
      omega
  · -- the first of those that do is the nearest one
    left
    rw [hfind]
    obtain ⟨item, hitem, hcontent, hfirst⟩ := Search.findIdx?_extract_eq_some hfind
    have hlt := (hbehind (n + j) item hitem).mp (Nat.le_add_right n j)
    refine ⟨item, Array.mem_of_getElem? hitem, hcontent, hlt, fun other hother hcontent' hlt' => ?_,
      h.startsAt_firstRow hitem⟩
    obtain ⟨k, hk⟩ := Array.mem_iff_getElem?.mp hother
    rcases Nat.lt_trichotomy k (n + j) with hless | rfl | hmore
    · have hnot := hfirst k other ((hbehind k other hk).mpr hlt') hless hk
      exact Bool.noConfusion (hcontent'.symm.trans hnot)
    · obtain rfl : item = other := Option.some.inj (hitem.symm.trans hk)
      exact UInt64.le_refl _
    · exact UInt64.le_iff_toNat_le.mpr (h.before_of_lt hitem hk hmore).1

/-! ## There and back -/

/-- A row of bytes is a row of a gap. -/
theorem Laid.exists_gap_of_kind (h : l.Laid m code stream labelOf) {k : Nat} (hk : k < l.size)
    (hkind : (l.row k).kind = .bytes) : ∃ s start stop first sub, .gap s start stop ∈ l.items
      ∧ start.toNat < stop.toNat ∧ l.StartsAt m (.gap s start stop) first ∧ k = first + sub
      ∧ sub < (Item.gap s start stop).rows ∧ l.row k = l.gapRow s start stop sub k := by
  obtain ⟨r, hplain, hrow⟩ := h.row_eq hk
  obtain ⟨item, first, sub, hstarts, rfl, hr⟩ := exists_startsAt hplain
  rw [hrow] at hkind
  obtain ⟨s, start, stop, rfl⟩ := eq_gap_of_kind hr hkind
  obtain ⟨n, hn, -⟩ := h.exists_of_startsAt hstarts
  have hitem := Array.mem_of_getElem? hn
  have hcontent := h.content _ hitem
  have hpos : start.toNat < stop.toNat := hcontent rfl
  have hsub : sub < (Item.gap s start stop).rows := by
    rw [← length_rowsOf h.machine hcontent]
    exact (List.getElem?_eq_some_iff.mp hr).1
  obtain rfl := Option.some.inj ((getElem?_rowsOf_gap hpos hsub).symm.trans hr)
  exact ⟨s, start, stop, first, sub, hitem, hpos, hstarts, rfl, hsub, hrow⟩

/-- **The address that a row shows leads back to the row**, if it is one of bytes or the first one
of an entry. -/
theorem Laid.rowFor_row (h : l.Laid m code stream labelOf) {k : Nat} (hk : k < l.size)
    (hrow : (l.row k).kind = .bytes ∨ ∃ i label, l.StartsAt m (.entry i label) k) :
    l.rowFor (l.row k).address = k := by
  rcases hrow with hkind | ⟨i, label, hstarts⟩
  · -- a row of bytes shows an address of its gap in its own line
    obtain ⟨s, start, stop, first, sub, -, hpos, hstarts, rfl, hsub, hrow⟩ :=
      h.exists_gap_of_kind hk hkind
    obtain ⟨hcovers, hlines⟩ := l.gapRow_covers s hpos hsub
    rw [hrow]
    exact (h.rowFor_of_covers hstarts hcovers).trans (congrArg (first + ·) hlines)
  · -- the first row of an entry shows where the entry starts
    obtain ⟨r, hr, haddress, -⟩ := l.exists_entry_row m i label
    obtain ⟨-, hrow⟩ := h.row_of_startsAt hstarts hr
    obtain ⟨n, hitem, -⟩ := h.exists_of_startsAt hstarts
    have hpos := h.content _ (Array.mem_of_getElem? hitem) rfl
    have hcovers : (Item.entry i label).Covers i.address := ⟨rfl, Nat.le_refl _, hpos⟩
    have hshown : (l.row k).address = i.address := (congrArg Row.address hrow).trans haddress
    rw [hshown]
    exact h.rowFor_of_covers hstarts hcovers

end Listing

namespace Analysis

variable {c : Conditions} {config : Config} {machine : Option Machine} {order : ByteOrder}
variable {entry : UInt64} {sections : List Section} {symbols : List Symbol} {an : Analysis}

/--
**Every address has its row.**

Take an image that is built, all of whose sections end below `2 ^ 64`, and the listing of its
analysis. The row for an address is one of the listing. For an address in an executable section it
is the first row of the entry that holds the address; where no entry does, it is the row of bytes
that shows the line of the address. For any other address it is the first row of what comes next.
So the address of a row of bytes, or of the first row of an entry, leads back to that row.
-/
theorem rowFor_anchors
    (h : run c config (Image.build machine order entry sections symbols) = .ok an)
    (hends : ∀ s ∈ (Image.build machine order entry sections symbols).sections,
      s.start.toNat + s.size.toNat < 2 ^ 64) (records : Debug.Index) :
    let l := Listing.build an records
    let code := (Image.build machine order entry sections symbols).sections.toList.filter
      (·.executable)
    (∀ a, l.rowFor a < l.size)
      ∧ (∀ a, (∃ s ∈ code, s.contains a = true) →
        l.IsEntryRow an.machine an.stream records.symbolAt a (l.rowFor a)
        ∨ (∀ i ∈ an.stream, ¬ (i.address ≤ a ∧ a < i.stop))
          ∧ l.IsLineRow an.machine a (l.rowFor a))
      ∧ (∀ a, (∀ s ∈ code, s.contains a = false) → l.IsNextRow an.machine a (l.rowFor a))
      ∧ ∀ k < l.size, (l.row k).kind = .bytes
        ∨ (∃ i ∈ an.stream, l.StartsAt an.machine (.entry i (records.symbolAt i.address)) k) →
        l.rowFor (l.row k).address = k := by
  intro l code
  have hlaid := laid_build h hends records
  have houtside : ∀ a, (∀ s ∈ code, s.contains a = false) → ∀ item ∈ l.items, ¬ item.Covers a := by
    intro a ha item hitem hcovers
    obtain ⟨s, hs, hcontains⟩ := (hlaid.covered a).mp ⟨item, hitem, hcovers⟩
    exact absurd hcontains (by simp [ha s hs])
  refine ⟨fun a => ?_, fun a ha => (hlaid.rowFor_of_contains ha).2,
    fun a ha => hlaid.rowFor_of_not_covers (houtside a ha), fun k hk hrow => ?_⟩
  · by_cases ha : ∃ s ∈ code, s.contains a = true
    · exact (hlaid.rowFor_of_contains ha).1
    · have hnone : ∀ s ∈ code, s.contains a = false := fun s hs =>
        Bool.eq_false_iff.mpr fun hcontains => ha ⟨s, hs, hcontains⟩
      rcases hlaid.rowFor_of_not_covers (houtside a hnone) with
        ⟨item, -, -, -, -, hstarts⟩ | ⟨-, hlast⟩
      · exact hlaid.lt_size_of_startsAt hstarts item.rows_pos
      · show (Listing.build an records).rowFor a < (Listing.build an records).size
        omega
  · exact hlaid.rowFor_row hk (hrow.imp_right fun ⟨i, _, hstarts⟩ => ⟨i, _, hstarts⟩)

/-- The start of the invalid entry, an address in the gap, and one behind the code. -/
theorem rowFor_anchors_overlap : ∃ an, run {} {} overlapImage = .ok an
    ∧ (∀ s ∈ overlapImage.sections, s.start.toNat + s.size.toNat < 2 ^ 64)
    ∧ let l := Listing.build an { image := some overlapImage }
      l.rowFor 0x1000 = 1 ∧ l.rowFor 0x1005 = 5 ∧ l.rowFor 0x1006 = 6
        ∧ (∀ a, l.rowFor a < l.size) ∧ l.rowFor (l.row 5).address = 5
        ∧ l.IsNextRow an.machine 0x1006 6 := by
  obtain ⟨an, han, hrows⟩ : ∃ an, run {} {} overlapImage = .ok an
      ∧ (let l := Listing.build an { image := some overlapImage }
        ([0x1000, 0x1005, 0x1006].map l.rowFor, l.size, (l.row 5).kind)
          == ([1, 5, 6], 7, .bytes)) = true :=
    exists_ok_of_any (by decide +kernel)
  obtain ⟨⟨hentry, hgap, hbehind⟩, hsize, hkind⟩ :
      ((Listing.build an { image := some overlapImage }).rowFor 0x1000 = 1
        ∧ (Listing.build an { image := some overlapImage }).rowFor 0x1005 = 5
        ∧ (Listing.build an { image := some overlapImage }).rowFor 0x1006 = 6)
        ∧ (Listing.build an { image := some overlapImage }).size = 7
        ∧ ((Listing.build an { image := some overlapImage }).row 5).kind = .bytes := by
    simpa using hrows
  obtain ⟨hlt, -, hnext, hback⟩ :=
    rowFor_anchors han overlapImage_ends { image := some overlapImage }
  have hlast := hnext 0x1006 (by decide +kernel)
  rw [hbehind] at hlast
  exact ⟨an, han, overlapImage_ends, hentry, hgap, hbehind, hlt,
    hback 5 (by rw [hsize]; decide) (Or.inl hkind), hlast⟩

end Analysis

end Disassembler
