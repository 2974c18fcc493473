import Disassembler.Proofs.Layout

/-!
# Places of rows

The rows of a listing are the rows of its items, one item after another: `rowsOf` lists those of one
item, and no count of rows enters into it. The listing itself never walks that list. It counts rows
from checkpoints, in both directions, so the counts have to agree with the list: the rows before an
item with the place where its rows begin, and the rows behind a checkpoint with the row at a place.
-/

namespace Disassembler

/-! ## Lines of a gap -/

/-- The lines of eight bytes in which a byte of a range lies. -/
def Item.touchedLines (start stop : UInt64) : List Nat :=
  (List.range stop.toNat).filter fun line =>
    start.toNat < 8 * line + 8 ∧ 8 * line < stop.toNat

theorem Item.touchedLines_eq {s : Section} {start stop : UInt64}
    (h : start.toNat < stop.toNat) :
    touchedLines start stop = List.range' (lineOf start) (Item.gap s start stop).rows := by
  have hlow : ∀ line, start.toNat < 8 * line + 8 ↔ start.toNat / 8 ≤ line := by omega
  have hhigh : ∀ line, 8 * line < stop.toNat ↔ line < (stop.toNat + 7) / 8 := by omega
  have hrows : (Item.gap s start stop).rows
      = min stop.toNat ((stop.toNat + 7) / 8) - start.toNat / 8 := by
    rw [rows_gap h]
    omega
  rw [touchedLines, hrows]
  simp only [hlow, hhigh]
  exact filter_range _ _ _

example : Item.touchedLines 6 18 = [0, 1, 2] := by decide

namespace Listing

variable {l : Listing} {m : Machine} {code : List Section} {stream : Array Instruction}
variable {labelOf : UInt64 → Option Text}

/-! ## The rows of an item -/

/-- The rows of an item in a listing of code of a machine, not yet numbered. -/
def rowsOf (l : Listing) (m : Machine) : Item → List Row
  | .opening s => [markRow s.start (l.openingText s) 0]
  | .closing s => [markRow s.stop ("; end of section " ++ s.name) 0]
  | .entry i none => [l.entryRow m i 0]
  | .entry i (some label) => [l.labelRow i.address label 0, l.entryRow m i 0]
  | .gap s start stop => (Item.touchedLines start stop).map fun line =>
      l.gapRow s start stop (line - Item.lineOf start) 0

/-- The rows of a gap are those of its lines, counted from the first one. -/
theorem getElem?_rowsOf_gap {s : Section} {start stop : UInt64} {sub : Nat}
    (h : start.toNat < stop.toNat) (hsub : sub < (Item.gap s start stop).rows) :
    (l.rowsOf m (.gap s start stop))[sub]? = some (l.gapRow s start stop sub 0) := by
  rw [rowsOf, @Item.touchedLines_eq s start stop h, List.getElem?_map, List.getElem?_range' hsub,
    Option.map_some, Nat.one_mul, Nat.add_sub_cancel_left]

/-- The rows of an item are built one by one, each with its number. -/
theorem mapIdx_rowsOf (hm : l.machine = some m) (index : Nat) {item : Item}
    (hitem : item.isContent = true → item.address.toNat < item.stop.toNat) :
    (l.rowsOf m item).mapIdx (fun k r => { r with index := index + k })
      = (List.range item.rows).map fun sub => l.itemRow item sub (index + sub) := by
  cases item with
  | opening s => rfl
  | closing s => rfl
  | entry i label =>
    cases label with
    | none =>
      show _ = [l.itemRow (.entry i none) 0 (index + 0)]
      simp only [itemRow, hm]
      rfl
    | some t =>
      show _ = [l.itemRow (.entry i (some t)) 0 (index + 0),
        l.itemRow (.entry i (some t)) 1 (index + 1)]
      simp only [itemRow, hm]
      rfl
  | gap s start stop =>
    have hlt : start.toNat < stop.toNat := hitem rfl
    apply List.ext_getElem?
    intro k
    rw [List.getElem?_mapIdx, List.getElem?_map]
    by_cases hk : k < (Item.gap s start stop).rows
    · rw [getElem?_rowsOf_gap hlt hk, List.getElem?_range hk]
      rfl
    · have hle := Nat.le_of_not_lt hk
      have hnone : (l.rowsOf m (.gap s start stop))[k]? = none := by
        rw [rowsOf, @Item.touchedLines_eq s start stop hlt]
        exact List.getElem?_eq_none (by simpa using hle)
      rw [hnone, List.getElem?_eq_none (by simpa using hle)]
      rfl

theorem length_rowsOf (hm : l.machine = some m) {item : Item}
    (hitem : item.isContent = true → item.address.toNat < item.stop.toNat) :
    (l.rowsOf m item).length = item.rows := by
  have h := congrArg List.length (mapIdx_rowsOf hm 0 hitem)
  rwa [List.length_mapIdx, List.length_map, List.length_range] at h

/-- **The rows of items are numbered through**, from the place of the first one. -/
theorem rowsFrom_eq_mapIdx (hm : l.machine = some m) (index : Nat) {items : List Item}
    (hitems : ∀ item ∈ items, item.isContent = true → item.address.toNat < item.stop.toNat) :
    l.rowsFrom index items
      = (items.flatMap (l.rowsOf m)).mapIdx fun k r => { r with index := index + k } := by
  -- the rows of the rest are numbered from behind those of the first item
  induction items generalizing index with
  | nil => rfl
  | cons item items ih =>
    have hitem := hitems item List.mem_cons_self
    have hrest := ih (index + item.rows) fun j hj => hitems j (List.mem_cons_of_mem item hj)
    rw [rowsFrom, hrest, List.flatMap_cons, List.mapIdx_append, mapIdx_rowsOf hm index hitem,
      length_rowsOf hm hitem]
    simp only [Nat.add_assoc, Nat.add_comm item.rows]

theorem length_flatMap_rowsOf (hm : l.machine = some m) {items : List Item}
    (hitems : ∀ item ∈ items, item.isContent = true → item.address.toNat < item.stop.toNat) :
    (items.flatMap (l.rowsOf m)).length = Item.totalRows items := by
  have h := congrArg List.length (rowsFrom_eq_mapIdx hm 0 hitems)
  rw [length_rowsFrom, List.length_mapIdx] at h
  exact h.symm

/-- The rows of a listing, one item after another, not yet numbered. -/
def plainRows (l : Listing) (m : Machine) : List Row := l.items.toList.flatMap (l.rowsOf m)

/-- The rows of an item begin at a place: so many rows are those of the items before it. -/
def StartsAt (l : Listing) (m : Machine) (item : Item) (k : Nat) : Prop :=
  ∃ front back, l.items.toList = front ++ item :: back
    ∧ k = (front.flatMap (l.rowsOf m)).length

/-! ## From places to rows -/

/-- **The row at a place is the one that stands there in the plain list of rows.** -/
theorem Laid.row_eq (h : l.Laid m code stream labelOf) {k : Nat} (hk : k < l.size) :
    ∃ r, (l.plainRows m)[k]? = some r ∧ l.row k = { r with index := k } := by
  have hrow := getElem?_rowsFrom_items h.indexed hk
  have hcontent : ∀ item ∈ l.items.toList, item.isContent = true →
      item.address.toNat < item.stop.toNat :=
    fun item hitem => h.content item (Array.mem_toList_iff.mp hitem)
  rw [rowsFrom_eq_mapIdx h.machine 0 hcontent, List.getElem?_mapIdx] at hrow
  obtain ⟨r, hr, hrow⟩ := Option.map_eq_some_iff.mp hrow
  rw [Nat.zero_add] at hrow
  exact ⟨r, hr, hrow.symm⟩

theorem Laid.size_eq (h : l.Laid m code stream labelOf) : l.size = (l.plainRows m).length := by
  rw [h.indexed.size, plainRows, length_flatMap_rowsOf h.machine]
  exact fun item hitem => h.content item (Array.mem_toList_iff.mp hitem)

/-- Every row is one of the rows of an item. -/
theorem exists_startsAt {k : Nat} {r : Row} (hr : (l.plainRows m)[k]? = some r) :
    ∃ item first sub, l.StartsAt m item first ∧ k = first + sub
      ∧ (l.rowsOf m item)[sub]? = some r := by
  obtain ⟨front, item, back, sub, hitems, hk, hsub⟩ := exists_of_getElem?_flatMap hr
  exact ⟨item, _, sub, ⟨front, back, hitems, rfl⟩, hk, hsub⟩

/-- The rows of an item are at the places behind the one where they begin. -/
theorem StartsAt.getElem?_plainRows {item : Item} {first sub : Nat} {r : Row}
    (h : l.StartsAt m item first) (hr : (l.rowsOf m item)[sub]? = some r) :
    (l.plainRows m)[first + sub]? = some r := by
  obtain ⟨front, back, hitems, rfl⟩ := h
  obtain ⟨hsub, -⟩ := List.getElem?_eq_some_iff.mp hr
  rw [plainRows, hitems, List.flatMap_append, List.flatMap_cons,
    List.getElem?_append_right (Nat.le_add_right _ _), Nat.add_sub_cancel_left,
    List.getElem?_append_left hsub]
  exact hr

theorem Laid.row_of_startsAt (h : l.Laid m code stream labelOf) {item : Item} {first sub : Nat}
    {r : Row} (hstarts : l.StartsAt m item first) (hr : (l.rowsOf m item)[sub]? = some r) :
    first + sub < l.size ∧ l.row (first + sub) = { r with index := first + sub } := by
  have hplain := hstarts.getElem?_plainRows hr
  have hlt : first + sub < l.size := by
    rw [h.size_eq]
    exact (List.getElem?_eq_some_iff.mp hplain).1
  obtain ⟨r', hr', hrow⟩ := h.row_eq hlt
  obtain rfl : r = r' := Option.some.inj (hplain.symm.trans hr')
  exact ⟨hlt, hrow⟩

end Listing

/-! ## From items to places -/

/-- **The checkpoints are those of every sixty-fourth item, in order.** -/
theorem Checkpoint.getElem?_ofItems {front items : List Item} {j : Nat}
    (hj : 64 * ((front.length + 63) / 64 + j) < (front ++ items).length) :
    (ofItems front.length (Item.totalRows front) items)[j]?
      = some (ofItem (front ++ items) (64 * ((front.length + 63) / 64 + j))) := by
  induction items generalizing front j with
  | nil =>
    rw [List.append_nil] at hj
    omega
  | cons i items ih =>
    have hstep := @ih (front ++ [i])
    simp only [List.length_append, List.length_singleton, Item.totalRows_append,
      Item.totalRows_cons, Item.totalRows_nil, Nat.add_zero, List.append_assoc,
      List.singleton_append] at hstep
    rw [List.length_append, List.length_cons] at hj
    rw [ofItems]
    have hstride : checkpointStride = 64 := rfl
    by_cases hmod : front.length % checkpointStride = 0
    · -- the first checkpoint is that of the first item, and the rest follow from the next one
      rw [if_pos hmod]
      rw [hstride] at hmod
      cases j with
      | zero =>
        have hplace : 64 * ((front.length + 63) / 64 + 0) = front.length := by omega
        rw [hplace, ofItem, List.take_left]
        rfl
      | succ j =>
        have hnext : (front.length + 63) / 64 + (j + 1) = (front.length + 1 + 63) / 64 + j := by
          omega
        rw [hnext] at hj ⊢
        exact hstep (by simpa using hj)
    · -- rounding up to the stride gives the same from the next item on
      rw [if_neg hmod]
      rw [hstride] at hmod
      have hnext : (front.length + 63) / 64 + j = (front.length + 1 + 63) / 64 + j := by omega
      rw [hnext] at hj ⊢
      exact hstep (by simpa using hj)

namespace Listing

variable {l : Listing} {m : Machine} {code : List Section} {stream : Array Instruction}
variable {labelOf : UInt64 → Option Text}

/-- **The rows before an item are counted right**, from the last checkpoint on. -/
theorem firstRow_eq (h : l.Indexed) {n : Nat} (hn : n < l.items.size) :
    l.firstRow n = Item.totalRows (l.items.toList.take n) := by
  have hcheckpoint : l.checkpoints[n / checkpointStride]?
      = some (Checkpoint.ofItem l.items.toList (64 * (n / 64))) := by
    have hplace : 64 * ((0 + 63) / 64 + n / 64) = 64 * (n / 64) := by omega
    have hget := @Checkpoint.getElem?_ofItems [] l.items.toList (n / 64)
    simp only [List.length_nil, List.nil_append, hplace] at hget
    rw [← Array.getElem?_toList, h.checkpoints]
    exact hget (by rw [Array.length_toList]; omega)
  -- the rows up to the checkpoint and those from there on make up all before the item
  have hle : 64 * (n / 64) ≤ n := by omega
  rw [firstRow, hcheckpoint]
  show Item.totalRows (l.items.toList.take (64 * (n / 64)))
    + Item.totalRows (l.items.extract (64 * (n / 64)) n).toList = _
  rw [Array.toList_extract, List.extract_eq_take_drop, ← Item.totalRows_append, ← List.take_add,
    Nat.add_sub_cancel' hle]

theorem firstRow_add_lt_size (h : l.Indexed) {n sub : Nat} {item : Item}
    (hitem : l.items[n]? = some item) (hsub : sub < item.rows) : l.firstRow n + sub < l.size := by
  obtain ⟨hn, rfl⟩ := Array.getElem?_eq_some_iff.mp hitem
  have hn' : n < l.items.toList.length := hn
  -- the rows of all items are those before this one, its own, and those behind it
  have hsplit := List.take_append_drop n l.items.toList
  rw [List.drop_eq_getElem_cons hn', Array.getElem_toList] at hsplit
  have htotal := congrArg Item.totalRows hsplit
  rw [Item.totalRows_append, Item.totalRows_cons] at htotal
  rw [firstRow_eq h hn, h.size]
  omega

/-- What is built from an analysis with code begins with the mark of a section, which has another
one at its end. -/
theorem exists_opening_build {an : Analysis} (records : Debug.Index)
    (h : ∃ s, s ∈ an.image.sections.toList.filter (·.executable)) :
    1 < (build an records).size ∧ ∃ s, (build an records).items[0]? = some (.opening s) := by
  have hsize := (indexed_build an records).size
  have hitems : (build an records).items.toList = Item.ofSections records.symbolAt
      (an.image.sections.toList.filter (·.executable)) an.stream.toList := rfl
  obtain ⟨s, hs⟩ := h
  cases hcode : an.image.sections.toList.filter (·.executable) with
  | nil => exact absurd (hcode ▸ hs) List.not_mem_nil
  | cons t rest =>
    rw [hcode, Item.ofSections] at hitems
    refine ⟨?_, t, ?_⟩
    · rw [hitems] at hsize
      simp only [List.cons_append, Item.totalRows_cons, Item.totalRows_append] at hsize
      have hopening := (Item.opening t).rows_pos
      have hclosing := (Item.closing t).rows_pos
      omega
    · rw [← Array.getElem?_toList, hitems]
      rfl

theorem size_pos_build {an : Analysis} (records : Debug.Index)
    (h : ∃ s, s ∈ an.image.sections.toList.filter (·.executable)) :
    0 < (build an records).size :=
  Nat.zero_lt_of_lt (exists_opening_build records h).1

/-- **The row for an address is one of the listing**, if that has any. -/
theorem rowFor_lt_size (h : l.Indexed) (hpos : 0 < l.size) (a : UInt64) :
    l.rowFor a < l.size := by
  have hfirst : ∀ {n : Nat} {item : Item}, l.items[n]? = some item → l.firstRow n < l.size :=
    fun {_ item} hitem => firstRow_add_lt_size h hitem item.rows_pos
  rw [rowFor]
  rcases hn : l.itemAt a with _ | n
  · dsimp only
    split
    · rename_i k hfind
      obtain ⟨item, hitem, -⟩ := Search.findIdx?_extract_eq_some hfind
      exact hfirst hitem
    · omega
  · obtain ⟨-, item, hitem, hcontent, hstop⟩ := lastCovering_eq_some hn
    simp only [hitem]
    cases item with
    | opening s => exact Bool.noConfusion hcontent
    | closing s => exact Bool.noConfusion hcontent
    | entry i label => exact hfirst hitem
    | gap s start stop =>
      refine firstRow_add_lt_size h hitem ?_
      -- the last line of the gap is that of the byte before its end
      have hstop : a.toNat < stop.toNat := UInt64.lt_iff_toNat_lt.mp hstop
      have hlast : (stop - 1).toNat = stop.toNat - 1 :=
        UInt64.toNat_sub_of_le stop 1 (UInt64.le_iff_toNat_le.mpr (by
          show 1 ≤ stop.toNat
          omega))
      rw [Item.rows, Item.lineOf, Item.lineOf, Item.lineOf, hlast, gapRowBytes]
      omega

/-- **No address belongs to the first row**, which is the mark of a section. -/
theorem rowFor_pos (h : l.Indexed) {s : Section} (hopening : l.items[0]? = some (.opening s))
    (hsize : 1 < l.size) (a : UInt64) : 0 < l.rowFor a := by
  -- an entry or a gap is not the first item, so it has rows before it
  have hfirst : ∀ {n : Nat} {item : Item}, l.items[n]? = some item → item.isContent = true →
      0 < l.firstRow n := by
    intro n item hitem hcontent
    obtain ⟨hn, -⟩ := Array.getElem?_eq_some_iff.mp hitem
    have hne : n ≠ 0 := by
      rintro rfl
      obtain rfl := Option.some.inj (hopening.symm.trans hitem)
      exact Bool.noConfusion hcontent
    have hlength : 0 < l.items.toList.length := by
      rw [Array.length_toList]
      omega
    rw [firstRow_eq h hn]
    exact Nat.zero_lt_of_lt (Item.totalRows_take_lt (Nat.pos_of_ne_zero hne) hlength)
  rw [rowFor]
  rcases hn : l.itemAt a with _ | n
  · dsimp only
    split
    · rename_i k hfind
      obtain ⟨item, hitem, hcontent, -⟩ := Search.findIdx?_extract_eq_some hfind
      exact hfirst hitem hcontent
    · omega
  · obtain ⟨-, item, hitem, hcontent, -⟩ := lastCovering_eq_some hn
    have hpos := hfirst hitem hcontent
    simp only [hitem]
    split
    · exact Nat.add_pos_left hpos _
    · exact hpos

/-- The rows of the item with a number begin behind those of the items before it. -/
theorem Laid.startsAt_firstRow (h : l.Laid m code stream labelOf) {n : Nat} {item : Item}
    (hitem : l.items[n]? = some item) : l.StartsAt m item (l.firstRow n) := by
  obtain ⟨hn, rfl⟩ := Array.getElem?_eq_some_iff.mp hitem
  have hn' : n < l.items.toList.length := hn
  refine ⟨l.items.toList.take n, l.items.toList.drop (n + 1), ?_, ?_⟩
  · rw [← Array.getElem_toList hn, ← List.drop_eq_getElem_cons hn', List.take_append_drop]
  · rw [firstRow_eq h.indexed hn, length_flatMap_rowsOf h.machine]
    intro item hitem
    exact h.content item (Array.mem_toList_iff.mp (List.mem_of_mem_take hitem))

theorem Laid.exists_of_startsAt (h : l.Laid m code stream labelOf) {item : Item} {k : Nat}
    (hstarts : l.StartsAt m item k) : ∃ n, l.items[n]? = some item ∧ l.firstRow n = k := by
  obtain ⟨front, back, hitems, rfl⟩ := hstarts
  have hitem : l.items[front.length]? = some item := by
    rw [← Array.getElem?_toList, hitems]
    simp
  refine ⟨front.length, hitem, ?_⟩
  rw [firstRow_eq h.indexed (Array.getElem?_eq_some_iff.mp hitem).1, hitems, List.take_left,
    length_flatMap_rowsOf h.machine]
  intro j hj
  refine h.content j (Array.mem_toList_iff.mp ?_)
  rw [hitems]
  exact List.mem_append_left _ hj

/-! ## The row of an entry -/

/-- **The row that is found for the address of an entry is its first one**, and is found only
there. -/
theorem Laid.rowOfEntry_eq_some_iff (h : l.Laid m code stream labelOf) {a : UInt64} {k : Nat} :
    l.rowOfEntry a = some k ↔
      ∃ i ∈ stream, i.address = a ∧ l.StartsAt m (.entry i (labelOf a)) k := by
  constructor
  · intro hk
    obtain ⟨n, hn, hk⟩ := Option.bind_eq_some_iff.mp hk
    split at hk
    · rename_i i label hitem
      split at hk
      · rename_i haddress
        obtain rfl := Option.some.inj hk
        obtain ⟨hi, rfl⟩ := (h.entry_mem i label).mp (Array.mem_of_getElem? hitem)
        exact ⟨i, hi, haddress, haddress ▸ h.startsAt_firstRow hitem⟩
      · exact absurd hk (by simp)
    · exact absurd hk (by simp)
  · rintro ⟨i, hi, rfl, hstarts⟩
    -- an entry covers its own address, so the search for the address finds it
    obtain ⟨n, hitem, rfl⟩ := h.exists_of_startsAt hstarts
    have hpos := h.content _ (Array.mem_of_getElem? hitem) rfl
    have hn : l.itemAt i.address = some n :=
      h.itemAt_eq_some_iff.mpr ⟨_, hitem, rfl, Nat.le_refl _, hpos⟩
    rw [rowOfEntry, hn]
    simp only [Option.bind_eq_bind, Option.bind_some, hitem, if_true]

/-- No row is found for an address exactly if no entry of the stream starts there. -/
theorem Laid.rowOfEntry_eq_none_iff (h : l.Laid m code stream labelOf) {a : UInt64} :
    l.rowOfEntry a = none ↔ ∀ i ∈ stream, i.address ≠ a := by
  constructor
  · rintro hnone i hi rfl
    have hitem := (h.entry_mem i (labelOf i.address)).mpr ⟨hi, rfl⟩
    obtain ⟨n, hn⟩ := Array.mem_iff_getElem?.mp hitem
    rw [h.rowOfEntry_eq_some_iff.mpr ⟨i, hi, rfl, h.startsAt_firstRow hn⟩] at hnone
    exact absurd hnone (by simp)
  · intro hall
    rcases hrow : l.rowOfEntry a with _ | k
    · rfl
    · obtain ⟨i, hi, haddress, -⟩ := h.rowOfEntry_eq_some_iff.mp hrow
      exact absurd haddress (hall i hi)

end Listing

namespace Analysis

variable {c : Conditions} {config : Config} {machine : Option Machine} {order : ByteOrder}
variable {entry : UInt64} {sections : List Section} {symbols : List Symbol} {an : Analysis}

/--
**The checkpoints of a listing lose nothing.**

Take an image that is built, all of whose sections end below `2 ^ 64`, and the listing of its
analysis. Its size is the length of the plain list of rows, and the row at each place below the size
is the one that stands there in that list, numbered with the place. The row of the entry at an
address is the place where the rows of that entry begin; there is none exactly if no entry of the
stream starts at the address.
-/
theorem checkpoints_exact
    (h : run c config (Image.build machine order entry sections symbols) = .ok an)
    (hends : ∀ s ∈ (Image.build machine order entry sections symbols).sections,
      s.start.toNat + s.size.toNat < 2 ^ 64) (records : Debug.Index) :
    let l := Listing.build an records
    l.size = (l.plainRows an.machine).length
      ∧ (∀ k < l.size, (l.row k).index = k
        ∧ ∃ r, (l.plainRows an.machine)[k]? = some r ∧ l.row k = { r with index := k })
      ∧ (∀ a k, l.rowOfEntry a = some k ↔ ∃ i ∈ an.stream, i.address = a
        ∧ l.StartsAt an.machine (.entry i (records.symbolAt a)) k)
      ∧ ∀ a, l.rowOfEntry a = none ↔ ∀ i ∈ an.stream, i.address ≠ a := by
  intro l
  have hlaid := laid_build h hends records
  refine ⟨hlaid.size_eq, fun k hk => ?_, fun a k => hlaid.rowOfEntry_eq_some_iff,
    fun a => hlaid.rowOfEntry_eq_none_iff⟩
  obtain ⟨r, hr, hrow⟩ := hlaid.row_eq hk
  exact ⟨congrArg Row.index hrow, r, hr, hrow⟩

theorem overlapImage_ends :
    ∀ s ∈ overlapImage.sections, s.start.toNat + s.size.toNat < 2 ^ 64 := by
  decide +kernel

/-- The second entry begins at the fourth row, with its label; no entry starts behind it. -/
theorem checkpoints_exact_overlap : ∃ an, run {} {} overlapImage = .ok an
    ∧ (∀ s ∈ overlapImage.sections, s.start.toNat + s.size.toNat < 2 ^ 64)
    ∧ let l := Listing.build an { image := some overlapImage }
      l.size = 7 ∧ l.rowOfEntry 0x1001 = some 3 ∧ l.rowOfEntry 0x1002 = none
        ∧ (l.plainRows an.machine).length = 7
        ∧ (∃ i ∈ an.stream, i.address = 0x1001
          ∧ ∃ label, l.StartsAt an.machine (.entry i label) 3)
        ∧ ∀ i ∈ an.stream, i.address ≠ 0x1002 := by
  obtain ⟨an, han, hrows⟩ : ∃ an, run {} {} overlapImage = .ok an
      ∧ (let l := Listing.build an { image := some overlapImage }
        (l.size, l.rowOfEntry 0x1001, l.rowOfEntry 0x1002) == (7, some 3, none)) = true :=
    exists_ok_of_any (by decide +kernel)
  obtain ⟨hsize, hsecond, hbehind⟩ :
      (Listing.build an { image := some overlapImage }).size = 7
        ∧ (Listing.build an { image := some overlapImage }).rowOfEntry 0x1001 = some 3
        ∧ (Listing.build an { image := some overlapImage }).rowOfEntry 0x1002 = none := by
    simpa using hrows
  obtain ⟨hlength, -, hsome, hnone⟩ :=
    checkpoints_exact han overlapImage_ends { image := some overlapImage }
  obtain ⟨i, hi, haddress, hstarts⟩ := (hsome 0x1001 3).mp hsecond
  exact ⟨an, han, overlapImage_ends, hsize, hsecond, hbehind, hlength ▸ hsize, ⟨i, hi, haddress, _, hstarts⟩,
    (hnone 0x1002).mp hbehind⟩

end Analysis

end Disassembler
