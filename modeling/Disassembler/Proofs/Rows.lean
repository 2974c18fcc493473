import Disassembler.Listing
import Disassembler.Proofs.Search

/-!
# The rows of a listing

The rows of a listing are those of its items, one item after another. That is never written out;
a row is found from the last checkpoint at or before it. Checkpoints are prefix sums of the rows at
every sixty-fourth item, so the item that makes a row is among the sixty-four behind that
checkpoint, and `map_row_range` gives back the plain concatenation.
-/

namespace Disassembler

namespace Item

/-- Every item makes a row. -/
theorem rows_pos (i : Item) : 0 < i.rows := by
  cases i with
  | opening s => exact Nat.one_pos
  | closing s => exact Nat.one_pos
  | entry i label =>
    simp only [rows]
    split
    · exact Nat.two_pos
    · exact Nat.one_pos
  | gap s start stop => exact Nat.succ_pos _

/-- The number of rows that items make together. -/
def totalRows (items : List Item) : Nat := (items.map rows).foldr (· + ·) 0

@[simp] theorem totalRows_nil : totalRows [] = 0 := rfl

@[simp] theorem totalRows_cons (i : Item) (items : List Item) :
    totalRows (i :: items) = i.rows + totalRows items := rfl

@[simp] theorem totalRows_append (items items' : List Item) :
    totalRows (items ++ items') = totalRows items + totalRows items' := by
  induction items with
  | nil => simp
  | cons i items ih => simp only [List.cons_append, totalRows_cons, ih, Nat.add_assoc]

/-- More items make more rows. -/
theorem totalRows_take_lt {items : List Item} {j k : Nat} (hjk : j < k) (hj : j < items.length) :
    totalRows (items.take j) < totalRows (items.take k) := by
  induction items generalizing j k with
  | nil => exact absurd hj (Nat.not_lt_zero j)
  | cons i items ih =>
    obtain ⟨k, rfl⟩ : ∃ k', k = k' + 1 := ⟨k - 1, by omega⟩
    cases j with
    | zero =>
      have hi := i.rows_pos
      simp only [List.take_zero, totalRows_nil, List.take_succ_cons, totalRows_cons]
      omega
    | succ j =>
      have hrest := ih (Nat.lt_of_succ_lt_succ hjk) (Nat.lt_of_succ_lt_succ hj)
      simp only [List.take_succ_cons, totalRows_cons]
      omega

end Item

/-! ## Checkpoints -/

namespace Checkpoint

/-- The checkpoint at an item: the items and the rows before it. -/
def ofItem (items : List Item) (k : Nat) : Checkpoint :=
  { item := k, row := Item.totalRows (items.take k) }

/-- **A checkpoint is made at every item whose place is a multiple of the stride.** -/
theorem mem_ofItems {front items : List Item} {c : Checkpoint} :
    c ∈ ofItems front.length (Item.totalRows front) items ↔
      ∃ k, front.length ≤ k ∧ k < (front ++ items).length ∧ k % checkpointStride = 0
        ∧ c = ofItem (front ++ items) k := by
  induction items generalizing front with
  | nil =>
    simp only [ofItems, List.not_mem_nil, List.append_nil, false_iff, not_exists]
    intro k hk
    omega
  | cons i items ih =>
    have hstep := @ih (front ++ [i])
    simp only [List.length_append, List.length_singleton, Item.totalRows_append,
      Item.totalRows_cons, Item.totalRows_nil, Nat.add_zero, List.append_assoc,
      List.singleton_append] at hstep
    have hhere : ofItem (front ++ i :: items) front.length
        = { item := front.length, row := Item.totalRows front } := by
      simp [ofItem]
    have hcases : (∃ k, front.length ≤ k ∧ k < (front ++ i :: items).length
          ∧ k % checkpointStride = 0 ∧ c = ofItem (front ++ i :: items) k) ↔
        front.length % checkpointStride = 0 ∧ c = ofItem (front ++ i :: items) front.length
          ∨ c ∈ ofItems (front.length + 1) (Item.totalRows front + i.rows) items := by
      rw [hstep]
      simp only [List.length_append, List.length_cons]
      constructor
      · rintro ⟨k, hle, hlt, hmod, rfl⟩
        rcases Nat.lt_or_eq_of_le hle with hbehind | rfl
        · exact Or.inr ⟨k, hbehind, by omega, hmod, rfl⟩
        · exact Or.inl ⟨hmod, rfl⟩
      · rintro (⟨hmod, rfl⟩ | ⟨k, hle, hlt, hmod, rfl⟩)
        · exact ⟨_, Nat.le_refl _, by omega, hmod, rfl⟩
        · exact ⟨k, by omega, by omega, hmod, rfl⟩
    rw [hcases, hhere, ofItems]
    split
    · rename_i hmod
      simp only [List.mem_cons, hmod, true_and]
    · rename_i hmod
      simp only [hmod, false_and, false_or]

/-- The checkpoints ascend, by items and by rows. -/
theorem pairwise_ofItems (front items : List Item) :
    (ofItems front.length (Item.totalRows front) items).Pairwise fun c d =>
      c.item < d.item ∧ c.row < d.row := by
  induction items generalizing front with
  | nil => exact List.Pairwise.nil
  | cons i items ih =>
    have hstep := ih (front ++ [i])
    have hmem := @mem_ofItems (front ++ [i]) items
    simp only [List.length_append, List.length_singleton, Item.totalRows_append,
      Item.totalRows_cons, Item.totalRows_nil, Nat.add_zero, List.append_assoc,
      List.singleton_append] at hstep hmem
    rw [ofItems]
    split
    · refine List.pairwise_cons.mpr ⟨fun d hd => ?_, hstep⟩
      obtain ⟨k, hle, hlt, -, rfl⟩ := hmem.mp hd
      have hrows := @Item.totalRows_take_lt (front ++ i :: items) front.length k (by omega)
        (by simp)
      simp only [List.take_left] at hrows
      exact ⟨Nat.lt_of_succ_le hle, hrows⟩
    · exact hstep

end Checkpoint

/-! ## One item after another -/

namespace Listing

/-- The rows of some items, one item after another, of which the first has a place. -/
def rowsFrom (l : Listing) (index : Nat) : List Item → List Row
  | [] => []
  | i :: rest => (List.range i.rows).map (fun sub => l.itemRow i sub (index + sub))
      ++ l.rowsFrom (index + i.rows) rest

@[simp] theorem length_rowsFrom (l : Listing) (index : Nat) (items : List Item) :
    (l.rowsFrom index items).length = Item.totalRows items := by
  induction items generalizing index with
  | nil => rfl
  | cons i items ih => simp [rowsFrom, ih]

theorem rowsFrom_append (l : Listing) (index : Nat) (items items' : List Item) :
    l.rowsFrom index (items ++ items')
      = l.rowsFrom index items ++ l.rowsFrom (index + Item.totalRows items) items' := by
  induction items generalizing index with
  | nil => rfl
  | cons i items ih =>
    simp only [List.cons_append, rowsFrom, ih, List.append_assoc, Item.totalRows_cons,
      Nat.add_assoc]

/-- Going through items finds the row that lies so many rows behind their start. -/
theorem getElem?_rowsFrom (l : Listing) (index : Nat) {items : List Item} {sub : Nat}
    (h : sub < Item.totalRows items) :
    (l.rowsFrom index items)[sub]? = some (l.rowAmong sub (index + sub) items) := by
  induction items generalizing index sub with
  | nil => exact absurd h (Nat.not_lt_zero sub)
  | cons i items ih =>
    simp only [rowsFrom, rowAmong]
    by_cases hsub : sub < i.rows
    · rw [List.getElem?_append_left (by simpa using hsub), if_pos hsub]
      simp [hsub]
    · have hle : i.rows ≤ sub := Nat.le_of_not_lt hsub
      have hrest : sub - i.rows < Item.totalRows items := by
        rw [Item.totalRows_cons] at h
        omega
      rw [List.getElem?_append_right (by simpa using hle), if_neg hsub]
      simp only [List.length_map, List.length_range]
      rw [ih (index + i.rows) hrest, Nat.add_assoc, Nat.add_sub_cancel' hle]

/-- The checkpoints and the size of a listing are those of its items. -/
structure Indexed (l : Listing) : Prop where
  checkpoints : l.checkpoints.toList = Checkpoint.ofItems 0 0 l.items.toList
  size : l.size = Item.totalRows l.items.toList

theorem indexed_build (an : Analysis) (records : Debug.Index) : (build an records).Indexed where
  checkpoints := rfl
  size := rfl

/-- **The last checkpoint at or before a row is less than a stride of items before it.** -/
theorem exists_checkpoint {l : Listing} (h : l.Indexed) {index : Nat} (hindex : index < l.size) :
    ∃ k, Search.last? (fun c : Checkpoint => c.row ≤ index) l.checkpoints
        = some (Checkpoint.ofItem l.items.toList k)
      ∧ Item.totalRows (l.items.toList.take k) ≤ index
      ∧ index < Item.totalRows (l.items.toList.take (k + checkpointStride)) := by
  have hmem : ∀ c, c ∈ l.checkpoints ↔ ∃ k, k < l.items.toList.length
      ∧ k % checkpointStride = 0 ∧ c = Checkpoint.ofItem l.items.toList k := by
    intro c
    rw [← Array.mem_toList_iff, h.checkpoints]
    simpa using @Checkpoint.mem_ofItems [] l.items.toList c
  have hsorted : l.checkpoints.toList.Pairwise fun c d => c.item < d.item ∧ c.row < d.row := by
    rw [h.checkpoints]
    exact Checkpoint.pairwise_ofItems [] l.items.toList
  have hfalling : Search.Falling (fun c : Checkpoint => c.row ≤ index) l.checkpoints :=
    Search.falling_le (hsorted.imp fun hcd => Nat.le_of_lt hcd.2)
  rcases hlast : Search.last? (fun c : Checkpoint => c.row ≤ index) l.checkpoints with _ | c
  · -- the first item has a checkpoint, before which there are no rows
    have hpos : 0 < l.items.toList.length := by
      rw [h.size] at hindex
      rcases hitems : l.items.toList with _ | ⟨i, rest⟩
      · rw [hitems] at hindex
        exact absurd hindex (Nat.not_lt_zero index)
      · exact Nat.succ_pos _
    have hnone := Search.last?_eq_none hfalling hlast _ ((hmem _).mpr ⟨0, hpos, rfl, rfl⟩)
    exact absurd (Nat.zero_le index) (of_decide_eq_false hnone)
  · obtain ⟨hc, hle, hall⟩ := Search.last?_eq_some hfalling hsorted hlast
    obtain ⟨k, hk, hmod, rfl⟩ := (hmem c).mp hc
    refine ⟨k, rfl, of_decide_eq_true hle, ?_⟩
    rcases Nat.lt_or_ge (k + checkpointStride) l.items.toList.length with hlt | hge
    · -- the next checkpoint is behind the row
      have hnext : Checkpoint.ofItem l.items.toList (k + checkpointStride) ∈ l.checkpoints :=
        (hmem _).mpr ⟨_, hlt, by rw [Nat.add_mod_right]; exact hmod, rfl⟩
      refine Nat.lt_of_not_le fun hbefore => ?_
      rcases hall _ hnext (decide_eq_true hbefore) with heq | ⟨hitem, -⟩
      · have hitem : k + checkpointStride = k := congrArg Checkpoint.item heq
        simp [checkpointStride] at hitem
      · have hitem : k + checkpointStride < k := hitem
        omega
    · rw [List.take_of_length_le hge, ← h.size]
      exact hindex

/-- **The row at a place is that of the plain concatenation.** -/
theorem getElem?_rowsFrom_items {l : Listing} (h : l.Indexed) {index : Nat}
    (hindex : index < l.size) : (l.rowsFrom 0 l.items.toList)[index]? = some (l.row index) := by
  obtain ⟨k, hlast, hle, hlt⟩ := exists_checkpoint h hindex
  have hwindow : (l.items.extract k (k + checkpointStride)).toList
      = (l.items.toList.drop k).take checkpointStride := by
    rw [Array.toList_extract, List.extract_eq_take_drop, Nat.add_sub_cancel_left]
  have hsplit : l.items.toList = l.items.toList.take k
      ++ ((l.items.toList.drop k).take checkpointStride
        ++ l.items.toList.drop (k + checkpointStride)) := by
    rw [← List.drop_drop, List.take_append_drop, List.take_append_drop]
  have hsub : index - Item.totalRows (l.items.toList.take k)
      < Item.totalRows ((l.items.toList.drop k).take checkpointStride) := by
    rw [List.take_add, Item.totalRows_append] at hlt
    omega
  have hrow : l.row index = l.rowAmong (index - Item.totalRows (l.items.toList.take k)) index
      ((l.items.toList.drop k).take checkpointStride) := by
    rw [row, if_pos hindex, hlast, ← hwindow]
    rfl
  calc (l.rowsFrom 0 l.items.toList)[index]?
      = (l.rowsFrom (0 + Item.totalRows (l.items.toList.take k))
          ((l.items.toList.drop k).take checkpointStride))[index
            - Item.totalRows (l.items.toList.take k)]? := by
        conv => lhs; rw [hsplit]
        rw [rowsFrom_append, List.getElem?_append_right (by simpa using hle), length_rowsFrom,
          rowsFrom_append, List.getElem?_append_left (by simpa using hsub)]
    _ = some (l.row index) := by
        rw [getElem?_rowsFrom l _ hsub, hrow, Nat.zero_add, Nat.add_sub_cancel' hle]

/-- **All rows of a listing are those of its items, one item after another.** -/
theorem map_row_range {l : Listing} (h : l.Indexed) :
    (List.range l.size).map l.row = l.rowsFrom 0 l.items.toList := by
  apply List.ext_getElem?
  intro index
  rcases Nat.lt_or_ge index l.size with hlt | hge
  · rw [getElem?_rowsFrom_items h hlt]
    simp [hlt]
  · rw [List.getElem?_eq_none (by simpa using hge),
      List.getElem?_eq_none (by rw [length_rowsFrom, ← h.size]; exact hge)]

end Listing

end Disassembler
