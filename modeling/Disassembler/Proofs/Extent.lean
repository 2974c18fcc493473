import Disassembler.Proofs.Layout

/-!
# How long a listing may be

A gap may be as large as the address space, and it makes a row for each eight of its bytes. Gaps do
not overlap, though, so all of them together make no more rows than the address space has lines, and
two more each for lines that they share. Any other row is of a section or of an entry, which lie in
memory. So the rows of a listing can always be counted by a signed 64-bit number.
-/

namespace Disassembler

namespace Item

/-! ## Rows and bytes -/

/-- An item makes a row for each eight of its bytes, and at most two more. -/
theorem rows_le {item : Item}
    (h : item.isContent = true → item.address.toNat < item.stop.toNat) :
    8 * item.rows + item.address.toNat ≤ 16 + item.stop.toNat := by
  cases item with
  | opening s | closing s => simp [rows, address, stop]
  | entry i label =>
    have hlt : i.address.toNat < i.stop.toNat := h rfl
    have hrows : (entry i label).rows ≤ 2 := by
      rw [rows]
      split
      · exact Nat.le_refl 2
      · decide
    show 8 * (entry i label).rows + i.address.toNat ≤ 16 + i.stop.toNat
    omega
  | gap s start stop =>
    have hlt : start.toNat < stop.toNat := h rfl
    show 8 * (gap s start stop).rows + start.toNat ≤ 16 + stop.toNat
    rw [rows_gap hlt]
    omega

/-- **Items that do not overlap make a row for each eight bytes behind an address**, and at most two
more each. -/
theorem totalRows_le {items : List Item} {a : Nat} (ha : a ≤ 2 ^ 64)
    (hbefore : items.Pairwise Before) (hstart : ∀ item ∈ items, a ≤ item.address.toNat)
    (hcontent : ∀ item ∈ items, item.isContent = true →
      item.address.toNat < item.stop.toNat) :
    8 * totalRows items + a ≤ 16 * items.length + 2 ^ 64 := by
  -- along the items; those that follow start behind the one that is counted
  induction items generalizing a with
  | nil => simpa using ha
  | cons item rest ih =>
    obtain ⟨hbehind, hrest⟩ := List.pairwise_cons.mp hbefore
    have hrows := rows_le (hcontent item List.mem_cons_self)
    have hmore := ih (a := item.stop.toNat) (Nat.le_of_lt item.stop.toNat_lt) hrest
      (fun j hj => (hbehind j hj).2) fun j hj => hcontent j (List.mem_cons_of_mem item hj)
    have hle := hstart item List.mem_cons_self
    rw [totalRows_cons, List.length_cons]
    omega

/-! ## Items and entries -/

variable {labelOf : UInt64 → Option Text}

theorem length_gapBetween_le (s : Section) (start stop : UInt64) :
    (gapBetween s start stop).length ≤ 1 := by
  rw [gapBetween]
  split
  · exact Nat.le_refl 1
  · exact Nat.zero_le 1

/-- The contents of a section are entries, the gaps before them, and a last gap. -/
theorem length_contents_le (s : Section) (a : UInt64) (stream : List Instruction) :
    (contents labelOf s a stream).1.length + 2 * (contents labelOf s a stream).2.length
      ≤ 2 * stream.length + 1 := by
  induction stream generalizing a with
  | nil => simpa [contents] using length_gapBetween_le s a s.stop
  | cons i rest ih =>
    have hgap := length_gapBetween_le s a i.address
    have hlast := length_gapBetween_le s a s.stop
    have hrest := ih (max a i.stop)
    rw [contents]
    split
    · simp only [List.length_append, List.length_cons]
      omega
    · simp only [List.length_cons]
      omega

/-- There are at most two items for each entry, and three for each section. -/
theorem length_ofSections_le (code : List Section) (stream : List Instruction) :
    (ofSections labelOf code stream).length ≤ 3 * code.length + 2 * stream.length := by
  induction code generalizing stream with
  | nil => exact Nat.zero_le _
  | cons s rest ih =>
    have hskipped := (List.dropWhile_sublist (fun i : Instruction => i.address < s.start)
      (l := stream)).length_le
    have hcontents := @length_contents_le labelOf s s.start
      (stream.dropWhile (·.address < s.start))
    have hrest := ih (contents labelOf s s.start (stream.dropWhile (·.address < s.start))).2
    simp only [ofSections, List.length_append, List.length_cons]
    omega

end Item

namespace Analysis

variable {c : Conditions} {config : Config} {machine : Option Machine} {order : ByteOrder}
variable {entry : UInt64} {sections : List Section} {symbols : List Symbol} {an : Analysis}

/-- **The rows of a listing can be counted** if its entries and sections can, however many bytes are
not decoded. -/
theorem size_build_lt
    (h : run c config (Image.build machine order entry sections symbols) = .ok an)
    (hends : ∀ s ∈ (Image.build machine order entry sections symbols).sections,
      s.start.toNat + s.size.toNat < 2 ^ 64)
    (hmemory : an.stream.size
      + (Image.build machine order entry sections symbols).sections.size < 2 ^ 58)
    (records : Debug.Index) : (Listing.build an records).size < 2 ^ 62 := by
  have hlaid := laid_build h hends records
  have hitems := items_build h records
  have hlength : (Listing.build an records).items.toList.length
      ≤ 3 * (an.stream.size + (Image.build machine order entry sections symbols).sections.size) := by
    have hcode := List.length_filter_le (fun s : Section => s.executable)
      (Image.build machine order entry sections symbols).sections.toList
    have hcount := @Item.length_ofSections_le records.symbolAt
      ((Image.build machine order entry sections symbols).sections.toList.filter (·.executable))
      an.stream.toList
    rw [hitems]
    simp only [Array.length_toList] at hcode hcount
    omega
  have hrows := Item.totalRows_le (Nat.zero_le _) hlaid.before (fun _ _ => Nat.zero_le _)
    fun item hitem => hlaid.content item (Array.mem_toList_iff.mp hitem)
  rw [hlaid.indexed.size]
  omega

end Analysis

end Disassembler
