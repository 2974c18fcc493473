import Disassembler.Proofs.Tiling

/-!
# The items of a listing in order

What later questions need to know of the items of a listing, in one place. Along the items addresses
never fall, no item starts inside one before it, and each entry or gap has bytes. A byte of the code
is covered by an entry or a gap, and nothing else is. The entries are those of the stream, with the
labels of their addresses. From the order alone it follows that going back from the last item that
starts at or before an address finds the item that covers it, and that there is only one.
-/

namespace Disassembler

namespace Item

/-- The address is one of the bytes of an entry or a gap. -/
def Covers (item : Item) (a : UInt64) : Prop :=
  item.isContent = true ∧ item.address.toNat ≤ a.toNat ∧ a.toNat < item.stop.toNat

/-- One item starts and ends before or where the other one starts. -/
def Before (i j : Item) : Prop :=
  i.address.toNat ≤ j.address.toNat ∧ i.stop.toNat ≤ j.address.toNat

/-! ## Tiles -/

theorem Tiles.bounds {a b : Nat} {items : List Item} (h : Tiles a items b) : a ≤ b ∧
    ∀ item ∈ items, a ≤ item.address.toNat ∧ item.address.toNat < item.stop.toNat
      ∧ item.stop.toNat ≤ b := by
  induction items generalizing a with
  | nil => exact ⟨Nat.le_of_eq h, fun item hitem => absurd hitem List.not_mem_nil⟩
  | cons i items ih =>
    obtain ⟨rfl, hlt, hrest⟩ := h
    obtain ⟨hle, hall⟩ := ih hrest
    refine ⟨by omega, fun item hitem => ?_⟩
    rcases List.mem_cons.mp hitem with rfl | hitem
    · exact ⟨Nat.le_refl _, hlt, hle⟩
    · obtain ⟨hstart, hpos, hstop⟩ := hall item hitem
      exact ⟨by omega, hpos, hstop⟩

theorem Tiles.pairwise_before {a b : Nat} {items : List Item} (h : Tiles a items b) :
    items.Pairwise Before := by
  induction items generalizing a with
  | nil => exact List.Pairwise.nil
  | cons i items ih =>
    obtain ⟨rfl, hlt, hrest⟩ := h
    refine List.pairwise_cons.mpr ⟨fun j hj => ?_, ih hrest⟩
    have hij := (hrest.bounds.2 j hj).1
    exact ⟨by omega, hij⟩

theorem Tiles.exists_mem {a b x : Nat} {items : List Item} (h : Tiles a items b) (ha : a ≤ x)
    (hb : x < b) : ∃ item ∈ items, item.address.toNat ≤ x ∧ x < item.stop.toNat := by
  induction items generalizing a with
  | nil =>
    obtain rfl : a = b := h
    omega
  | cons i items ih =>
    obtain ⟨rfl, -, hrest⟩ := h
    rcases Nat.lt_or_ge x i.stop.toNat with hlt | hge
    · exact ⟨i, List.mem_cons_self, ha, hlt⟩
    · obtain ⟨item, hitem, hcovers⟩ := ih hrest hge
      exact ⟨item, List.mem_cons_of_mem i hitem, hcovers⟩

theorem IsContentOf.isContent {labelOf : UInt64 → Option Text} {s : Section} {item : Item}
    (h : item.IsContentOf labelOf s) : item.isContent = true := by
  rcases h with ⟨a, b, rfl⟩ | ⟨i, rfl⟩
  · rfl
  · rfl

/-! ## Sections with their marks -/

variable {s : Section} {contents : List Item}

/-- The marks and the contents of a section. -/
def framed (s : Section) (contents : List Item) : List Item :=
  opening s :: contents ++ [closing s]

theorem mem_framed {item : Item} : item ∈ framed s contents ↔
    item = opening s ∨ item ∈ contents ∨ item = closing s := by
  rw [framed, List.cons_append, List.mem_cons, List.mem_append, List.mem_singleton]

/-- Whatever is shown of a section lies in it. -/
theorem bounds_of_mem_framed (hs : s.Fits)
    (h : Tiles s.start.toNat contents (s.start.toNat + s.size.toNat)) {item : Item}
    (hitem : item ∈ framed s contents) : s.start.toNat ≤ item.address.toNat
      ∧ item.address.toNat ≤ s.start.toNat + s.size.toNat
      ∧ item.stop.toNat ≤ s.start.toNat + s.size.toNat := by
  have hclosing : (closing s).address.toNat = s.start.toNat + s.size.toNat := hs.stop_toNat
  rcases mem_framed.mp hitem with rfl | hitem | rfl
  · have hopening : s.start.toNat ≤ s.start.toNat + s.size.toNat := Nat.le_add_right _ _
    exact ⟨Nat.le_refl _, hopening, hopening⟩
  · obtain ⟨hstart, hpos, hstop⟩ := h.bounds.2 item hitem
    exact ⟨hstart, by omega, hstop⟩
  · exact ⟨by omega, Nat.le_of_eq hclosing, Nat.le_of_eq hclosing⟩

theorem pairwise_before_framed (hs : s.Fits)
    (h : Tiles s.start.toNat contents (s.start.toNat + s.size.toNat)) :
    (framed s contents).Pairwise Before := by
  rw [framed, List.cons_append]
  refine List.pairwise_cons.mpr ⟨fun j hj => ?_, List.pairwise_append.mpr
    ⟨h.pairwise_before, List.pairwise_singleton _ _, fun i hi j hj => ?_⟩⟩
  · have hj := (bounds_of_mem_framed hs h (List.mem_cons_of_mem _ hj)).1
    exact ⟨hj, hj⟩
  · obtain rfl := List.mem_singleton.mp hj
    obtain ⟨-, hpos, hstop⟩ := h.bounds.2 i hi
    have hclosing : (closing s).address.toNat = s.start.toNat + s.size.toNat := hs.stop_toNat
    exact ⟨by omega, by omega⟩

/-! ## The items of sections -/

/-- Sections one behind the other, and a stream each entry of which lies in one of them. -/
structure Sectioned (code : List Section) (stream : List Instruction) : Prop where
  fits : ∀ s ∈ code, s.Fits
  before : code.Pairwise Section.Before
  apart : Instruction.Apart stream
  within : ∀ i ∈ stream, ∃ s ∈ code, i.Within s

section Sectioned

variable {code : List Section} {stream : List Instruction} {labelOf : UInt64 → Option Text}

/-- The contents of a section tile it, and their entries are those that it holds. -/
theorem Sectioned.tiles (h : Sectioned code stream) {s : Section} (hs : s ∈ code) :
    Tiles s.start.toNat (contentsOf labelOf stream s) (s.start.toNat + s.size.toNat)
      ∧ (contentsOf labelOf stream s).filterMap instruction?
        = stream.filter (s.contains ·.address)
      ∧ ∀ item ∈ contentsOf labelOf stream s, item.IsContentOf labelOf s :=
  tiles_contentsOf h.fits h.before h.apart h.within hs

theorem Sectioned.ofSections_eq (h : Sectioned code stream) :
    ofSections labelOf code stream
      = code.flatMap fun s => framed s (contentsOf labelOf stream s) :=
  ofSections_eq_flatMap h.fits h.before h.apart h.within

theorem Sectioned.mem_ofSections (h : Sectioned code stream) {item : Item} :
    item ∈ ofSections labelOf code stream ↔ ∃ s ∈ code, item = opening s
      ∨ item ∈ contentsOf labelOf stream s ∨ item = closing s := by
  rw [h.ofSections_eq, List.mem_flatMap]
  simp only [mem_framed]

/-- An entry or a gap is one of the contents of a section. -/
theorem Sectioned.exists_contents (h : Sectioned code stream) {item : Item}
    (hitem : item ∈ ofSections labelOf code stream) (hcontent : item.isContent = true) :
    ∃ s ∈ code, item ∈ contentsOf labelOf stream s := by
  obtain ⟨s, hs, rfl | hitem | rfl⟩ := h.mem_ofSections.mp hitem
  · exact Bool.noConfusion hcontent
  · exact ⟨s, hs, hitem⟩
  · exact Bool.noConfusion hcontent

theorem Sectioned.pairwise_before (h : Sectioned code stream) :
    (ofSections labelOf code stream).Pairwise Before := by
  rw [h.ofSections_eq, List.pairwise_flatMap]
  refine ⟨fun s hs => pairwise_before_framed (h.fits s hs) (h.tiles hs).1, ?_⟩
  -- all that is shown of a section ends before the next one starts
  refine h.before.imp_of_mem fun {s t} hs ht hst i hi j hj => ?_
  have hst : s.start.toNat + s.size.toNat ≤ t.start.toNat := hst
  obtain ⟨-, haddress, hstop⟩ := bounds_of_mem_framed (h.fits s hs) (h.tiles hs).1 hi
  obtain ⟨hstart, -, -⟩ := bounds_of_mem_framed (h.fits t ht) (h.tiles ht).1 hj
  exact ⟨by omega, by omega⟩

/-- **The bytes that entries and gaps cover are those of the sections.** -/
theorem Sectioned.exists_covers_iff (h : Sectioned code stream) {a : UInt64} :
    (∃ item ∈ ofSections labelOf code stream, item.Covers a)
      ↔ ∃ s ∈ code, s.contains a = true := by
  constructor
  · rintro ⟨item, hitem, hcontent, hle, hlt⟩
    obtain ⟨s, hs, hitem⟩ := h.exists_contents hitem hcontent
    obtain ⟨hstart, -, hstop⟩ := (h.tiles hs).1.bounds.2 item hitem
    exact ⟨s, hs, (h.fits s hs).contains_iff.mpr ⟨by omega, by omega⟩⟩
  · -- the contents of the section leave none of its bytes out
    rintro ⟨s, hs, hcontains⟩
    obtain ⟨hstart, hstop⟩ := (h.fits s hs).contains_iff.mp hcontains
    obtain ⟨item, hitem, hcovers⟩ := (h.tiles hs).1.exists_mem hstart hstop
    have hcontent := ((@Sectioned.tiles code stream labelOf h s hs).2.2 item hitem).isContent
    exact ⟨item, h.mem_ofSections.mpr ⟨s, hs, Or.inr (Or.inl hitem)⟩, hcontent, hcovers⟩

/-- **The entries are those of the stream**, each with the label of its address. -/
theorem Sectioned.entry_mem_iff (h : Sectioned code stream) {i : Instruction}
    {label : Option Text} : entry i label ∈ ofSections labelOf code stream
      ↔ i ∈ stream ∧ label = labelOf i.address := by
  constructor
  · intro hi
    obtain ⟨s, hs, hi⟩ := h.exists_contents hi rfl
    obtain ⟨-, hentries, hkinds⟩ := @Sectioned.tiles code stream labelOf h s hs
    have hfiltered : i ∈ stream.filter (s.contains ·.address) := by
      rw [← hentries]
      exact List.mem_filterMap.mpr ⟨_, hi, rfl⟩
    refine ⟨List.mem_of_mem_filter hfiltered, ?_⟩
    rcases hkinds _ hi with ⟨a, b, heq⟩ | ⟨j, heq⟩
    · exact Item.noConfusion heq
    · obtain ⟨rfl, rfl⟩ := entry.inj heq
      rfl
  · rintro ⟨hi, rfl⟩
    obtain ⟨s, hs, his⟩ := h.within i hi
    obtain ⟨-, hentries, hkinds⟩ := @Sectioned.tiles code stream labelOf h s hs
    have hcontains := Instruction.contains_of_within (h.fits s hs) (h.apart.placed i hi) his
    have hfiltered : i ∈ stream.filter (s.contains ·.address) :=
      List.mem_filter.mpr ⟨hi, hcontains⟩
    rw [← hentries] at hfiltered
    obtain ⟨item, hitem, hinstruction⟩ := List.mem_filterMap.mp hfiltered
    refine h.mem_ofSections.mpr ⟨s, hs, Or.inr (Or.inl ?_)⟩
    -- the only contents that hold an entry are entries with the labels of their addresses
    rcases hkinds item hitem with ⟨a, b, rfl⟩ | ⟨j, rfl⟩
    · exact absurd hinstruction (by simp [instruction?])
    · obtain rfl : j = i := Option.some.inj hinstruction
      exact hitem

end Sectioned

end Item

/-! ## The layout of a listing -/

namespace Listing

/-- **What is known of the items of a listing**, which shows code of a machine and a stream. -/
structure Laid (l : Listing) (m : Machine) (code : List Section) (stream : Array Instruction)
    (labelOf : UInt64 → Option Text) : Prop where
  indexed : l.Indexed
  machine : l.machine = some m
  pos : 0 < l.items.size
  before : l.items.toList.Pairwise Item.Before
  content : ∀ item ∈ l.items, item.isContent = true → item.address.toNat < item.stop.toNat
  covered : ∀ a, (∃ item ∈ l.items, item.Covers a) ↔ ∃ s ∈ code, s.contains a = true
  entry_mem : ∀ i label, .entry i label ∈ l.items ↔ i ∈ stream ∧ label = labelOf i.address

end Listing

namespace Analysis

variable {c : Conditions} {config : Config} {machine : Option Machine} {order : ByteOrder}
variable {entry : UInt64} {sections : List Section} {symbols : List Symbol} {an : Analysis}

/-- An analysed image has code. -/
theorem exists_code {image : Image} (h : run c config image = .ok an) :
    ∃ s, s ∈ image.sections.toList.filter (·.executable) := by
  rw [run] at h
  split at h
  · cases h
  split at h
  · rename_i hany
    obtain ⟨s, hs, hexec⟩ := Array.any_eq_true'.mp hany
    exact ⟨s, List.mem_filter.mpr ⟨Array.mem_toList_iff.mpr hs, hexec⟩⟩
  · cases h

/-- The sections of the code lie one behind the other, and the stream in them. -/
theorem sectioned_of_run
    (h : run c config (Image.build machine order entry sections symbols) = .ok an)
    (hends : ∀ s ∈ (Image.build machine order entry sections symbols).sections,
      s.start.toNat + s.size.toNat < 2 ^ 64) :
    Item.Sectioned
      ((Image.build machine order entry sections symbols).sections.toList.filter (·.executable))
      an.stream.toList where
  fits := fun s hs => hends s (Array.mem_toList_iff.mp (List.mem_of_mem_filter hs))
  before := (Image.pairwise_before hends).filter _
  apart := (stream_within_code h).1
  within := (stream_within_code h).2

theorem image_eq_of_run
    (h : run c config (Image.build machine order entry sections symbols) = .ok an) :
    an.image = Image.build machine order entry sections symbols := by
  obtain ⟨m, p, -, -, rfl⟩ := reached_of_run h
  rfl

/-- The items of the listing are those of the sections of the code. -/
theorem items_build
    (h : run c config (Image.build machine order entry sections symbols) = .ok an)
    (records : Debug.Index) :
    (Listing.build an records).items.toList = Item.ofSections records.symbolAt
      ((Image.build machine order entry sections symbols).sections.toList.filter (·.executable))
      an.stream.toList := by
  rw [← image_eq_of_run h]
  rfl

/-- **The items of the listing of an analysis are in order and show the stream.** -/
theorem laid_build
    (h : run c config (Image.build machine order entry sections symbols) = .ok an)
    (hends : ∀ s ∈ (Image.build machine order entry sections symbols).sections,
      s.start.toNat + s.size.toNat < 2 ^ 64) (records : Debug.Index) :
    (Listing.build an records).Laid an.machine
      ((Image.build machine order entry sections symbols).sections.toList.filter (·.executable))
      an.stream records.symbolAt := by
  have hsectioned := sectioned_of_run h hends
  have hitems := items_build h records
  obtain ⟨t, ht⟩ := exists_code h
  generalize
    (Image.build machine order entry sections symbols).sections.toList.filter (·.executable) = code
    at ht hsectioned hitems ⊢
  have hmem : ∀ item, item ∈ (Listing.build an records).items
      ↔ item ∈ Item.ofSections records.symbolAt code an.stream.toList := by
    intro item
    rw [← Array.mem_toList_iff, hitems]
  refine ⟨Listing.indexed_build an records, rfl, ?_, ?_, fun item hitem hcontent => ?_,
    fun a => ?_, fun i label => ?_⟩
  · refine Array.size_pos_of_mem ((hmem (.opening t)).mpr ?_)
    exact hsectioned.mem_ofSections.mpr ⟨t, ht, Or.inl rfl⟩
  · rw [hitems]
    exact hsectioned.pairwise_before
  · obtain ⟨s, hs, hitem⟩ := hsectioned.exists_contents ((hmem item).mp hitem) hcontent
    exact (hsectioned.tiles hs).1.address_lt_stop item hitem
  · simp only [hmem]
    exact hsectioned.exists_covers_iff
  · rw [hmem, hsectioned.entry_mem_iff, Array.mem_toList_iff]

end Analysis

/-! ## What covers an address -/

namespace Listing

variable {l : Listing} {m : Machine} {code : List Section} {stream : Array Instruction}
variable {labelOf : UInt64 → Option Text}

/-- Going back from a number of items finds content that ends behind the address. -/
theorem lastCovering_eq_some {a : UInt64} {n k : Nat} (h : l.lastCovering a n = some k) :
    k < n ∧ ∃ item, l.items[k]? = some item ∧ item.isContent = true ∧ a < item.stop := by
  induction n with
  | zero => exact absurd h (by simp [lastCovering])
  | succ n ih =>
    rw [lastCovering] at h
    split at h
    · obtain ⟨hk, hitem⟩ := ih h
      exact ⟨Nat.lt_succ_of_lt hk, hitem⟩
    · exact absurd h (by simp)
    · rename_i item hopening hclosing hitem
      split at h
      · rename_i hstop
        obtain rfl := Option.some.inj h
        refine ⟨Nat.lt_succ_self _, item, hitem, ?_, hstop⟩
        cases item with
        | opening s => exact absurd rfl (hopening s)
        | closing s => exact absurd rfl (hclosing s)
        | entry i label => rfl
        | gap s start stop => rfl
      · exact absurd h (by simp)
    · exact absurd h (by simp)

theorem lastCovering_succ {a : UInt64} {k : Nat} {item : Item} (hitem : l.items[k]? = some item)
    (hcontent : item.isContent = true) (hstop : a < item.stop) :
    l.lastCovering a (k + 1) = some k := by
  rw [lastCovering, hitem]
  cases item with
  | opening s => exact Bool.noConfusion hcontent
  | closing s => exact Bool.noConfusion hcontent
  | entry i label => exact if_pos hstop
  | gap s start stop => exact if_pos hstop

/-- The items that start at or before an address are the first ones. -/
theorem Laid.lt_countFrom_iff (h : l.Laid m code stream labelOf) {a : UInt64} {k : Nat}
    {item : Item} (hitem : l.items[k]? = some item) :
    k < l.countFrom a ↔ item.address.toNat ≤ a.toNat := by
  have hfalling : Search.Falling (fun i : Item => i.address ≤ a) l.items :=
    Search.falling_le (h.before.imp fun hij => UInt64.le_iff_toNat_le.mpr hij.1)
  rw [countFrom, Search.lt_endOf_iff hfalling hitem, decide_eq_true_eq, UInt64.le_iff_toNat_le]

theorem Laid.before_of_lt (h : l.Laid m code stream labelOf) {j k : Nat} {i i' : Item}
    (hi : l.items[j]? = some i) (hi' : l.items[k]? = some i') (hjk : j < k) : i.Before i' := by
  obtain ⟨hj, rfl⟩ := Array.getElem?_eq_some_iff.mp hi
  obtain ⟨hk, rfl⟩ := Array.getElem?_eq_some_iff.mp hi'
  exact List.pairwise_iff_getElem.mp h.before j k (by simpa using hj) (by simpa using hk) hjk

/-- **The item that is found for an address is the one that covers it.** -/
theorem Laid.itemAt_eq_some_iff (h : l.Laid m code stream labelOf) {a : UInt64} {k : Nat} :
    l.itemAt a = some k ↔ ∃ item, l.items[k]? = some item ∧ item.Covers a := by
  constructor
  · intro hk
    obtain ⟨hlt, item, hitem, hcontent, hstop⟩ := lastCovering_eq_some hk
    exact ⟨item, hitem, hcontent, (h.lt_countFrom_iff hitem).mp hlt,
      UInt64.lt_iff_toNat_lt.mp hstop⟩
  · rintro ⟨item, hitem, hcontent, hle, hlt⟩
    -- the item is the last that starts at or before the address
    have hcount : l.countFrom a = k + 1 := by
      refine Nat.le_antisymm (Nat.le_of_not_lt fun hmore => ?_) ((h.lt_countFrom_iff hitem).mpr hle)
      have hsize : k + 1 < l.items.size := Nat.lt_of_lt_of_le hmore (Search.endOf_le _ _)
      have hnext := Array.getElem?_eq_getElem hsize
      have hstart := (h.lt_countFrom_iff hnext).mp hmore
      have hstop := (h.before_of_lt hitem hnext (Nat.lt_succ_self k)).2
      omega
    rw [itemAt, hcount]
    exact lastCovering_succ hitem hcontent (UInt64.lt_iff_toNat_lt.mpr hlt)

theorem Laid.itemAt_eq_none (h : l.Laid m code stream labelOf) {a : UInt64}
    (ha : ∀ item ∈ l.items, ¬ item.Covers a) : l.itemAt a = none := by
  rcases hn : l.itemAt a with _ | n
  · rfl
  · obtain ⟨item, hitem, hcovers⟩ := h.itemAt_eq_some_iff.mp hn
    exact absurd hcovers (ha item (Array.mem_of_getElem? hitem))

end Listing

end Disassembler
