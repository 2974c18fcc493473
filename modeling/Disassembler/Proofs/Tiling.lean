import Disassembler.Proofs.Order
import Disassembler.Proofs.Rows
import Disassembler.Proofs.Stream

/-!
# A listing tiles the code

Between the marks of a section the items of a listing lie one behind the other, from the start of
the section to its end: `Tiles` says so for a list of items, and a gap is made exactly where the
stream leaves bytes open. The sections share one stream, and each takes from its front what lies in
it. Since sections lie one behind the other and every entry in one of them, nothing is passed over,
and what a section takes is all that it holds.
-/

namespace Disassembler

/-! ## Entries of a section -/

/-- An entry that lies in a section from its first byte to its last. -/
structure Instruction.Within (s : Section) (i : Instruction) : Prop where
  start_le : s.start.toNat ≤ i.address.toNat
  reach_le : i.reach ≤ s.start.toNat + s.size.toNat

/-- Entries that do not wrap and lie one behind the other. -/
structure Instruction.Apart (stream : List Instruction) : Prop where
  placed : ∀ i ∈ stream, i.Placed
  apart : stream.Pairwise fun i j => i.reach ≤ j.address.toNat

namespace Instruction

theorem Apart.filter {stream : List Instruction} (h : Apart stream) (p : Instruction → Bool) :
    Apart (stream.filter p) where
  placed := fun i hi => h.placed i (List.mem_of_mem_filter hi)
  apart := h.apart.filter p

/-- Of sections that lie one behind the other, an entry is in the one that holds its address. -/
theorem contains_of_within {s : Section} (hs : s.Fits) {i : Instruction} (hi : i.Placed)
    (h : i.Within s) : s.contains i.address = true := by
  have hpos := hi.address_lt
  have hreach := h.reach_le
  exact hs.contains_iff.mpr ⟨h.start_le, by omega⟩

/-- Of sections that lie one behind the other, only one holds an address. -/
theorem eq_of_contains {ss : List Section} (hfits : ∀ s ∈ ss, s.Fits)
    (hbefore : ss.Pairwise Section.Before) {s t : Section} (hs : s ∈ ss) (ht : t ∈ ss) {a : UInt64}
    (hsa : s.contains a = true) (hta : t.contains a = true) : s = t := by
  have hnot : ∀ u ∈ ss, ∀ v ∈ ss, u.Before v → u.contains a = true → ¬ v.contains a = true := by
    intro u hu v hv huv hua hva
    have huv : u.start.toNat + u.size.toNat ≤ v.start.toNat := huv
    have hua := ((hfits u hu).contains_iff.mp hua).2
    have hva := ((hfits v hv).contains_iff.mp hva).1
    omega
  obtain ⟨j, hj, rfl⟩ := List.getElem_of_mem hs
  obtain ⟨k, hk, rfl⟩ := List.getElem_of_mem ht
  have hbefore := List.pairwise_iff_getElem.mp hbefore
  rcases Nat.lt_trichotomy j k with hlt | rfl | hgt
  · exact absurd hta (hnot _ hs _ ht (hbefore j k hj hk hlt) hsa)
  · rfl
  · exact absurd hsa (hnot _ ht _ hs (hbefore k j hk hj hgt) hta)

/-- What a section holds of a stream that starts in it or behind it stands in front. -/
theorem filter_contains_append {s : Section} (hs : s.Fits) {stream : List Instruction}
    (h : Apart stream) (hstart : ∀ i ∈ stream, s.start.toNat ≤ i.address.toNat) :
    stream.filter (s.contains ·.address) ++ stream.filter (!s.contains ·.address) = stream := by
  refine filter_append_filter_not (h.apart.imp_of_mem fun {i j} hi hj hij hcontains => ?_)
  have hlt := (hs.contains_iff.mp hcontains).2
  have hpos := (h.placed i hi).address_lt
  exact hs.contains_iff.mpr ⟨hstart i hi, by omega⟩

variable {ss : List Section} {stream : List Instruction}

/-- What no first section holds lies in a later one. -/
theorem within_rest {s : Section} (hs : s.Fits) (h : Apart stream)
    (hin : ∀ i ∈ stream, ∃ t ∈ s :: ss, i.Within t) :
    ∀ i ∈ stream.filter (!s.contains ·.address), ∃ t ∈ ss, i.Within t := by
  intro i hi
  obtain ⟨hmem, hnot⟩ := List.mem_filter.mp hi
  obtain ⟨t, ht, hwithin⟩ := hin i hmem
  rcases List.mem_cons.mp ht with rfl | ht
  · simp [contains_of_within hs (h.placed i hmem) hwithin] at hnot
  · exact ⟨t, ht, hwithin⟩

/-- Entries in a section or a later one start at its start or behind it. -/
theorem start_le_of_within {s : Section} (hbefore : (s :: ss).Pairwise Section.Before)
    (hin : ∀ i ∈ stream, ∃ t ∈ s :: ss, i.Within t) :
    ∀ i ∈ stream, s.start.toNat ≤ i.address.toNat := by
  intro i hi
  obtain ⟨t, ht, hwithin⟩ := hin i hi
  have hstart := hwithin.start_le
  rcases List.mem_cons.mp ht with rfl | ht
  · exact hstart
  · have hst : s.start.toNat + s.size.toNat ≤ t.start.toNat :=
      (List.pairwise_cons.mp hbefore).1 t ht
    omega

/-- A later section holds nothing that the first one holds. -/
theorem filter_filter_of_before {s t : Section} (hs : s.Fits) (ht : t.Fits) (hst : s.Before t) :
    (stream.filter (!s.contains ·.address)).filter (t.contains ·.address)
      = stream.filter (t.contains ·.address) := by
  rw [List.filter_filter]
  refine List.filter_congr fun i _ => ?_
  have hst : s.start.toNat + s.size.toNat ≤ t.start.toNat := hst
  rcases hcontains : t.contains i.address with _ | _
  · rfl
  · have hstart := (ht.contains_iff.mp hcontains).1
    have hnot : s.contains i.address = false := by
      rw [Bool.eq_false_iff]
      intro hinside
      have hlt := (hs.contains_iff.mp hinside).2
      omega
    simp [hnot]

/-- **Every entry is in exactly one section**, and the sections hold them in their order. -/
theorem flatMap_filter_contains (hfits : ∀ s ∈ ss, s.Fits) (hbefore : ss.Pairwise Section.Before)
    (h : Apart stream) (hin : ∀ i ∈ stream, ∃ s ∈ ss, i.Within s) :
    ss.flatMap (fun s => stream.filter (s.contains ·.address)) = stream := by
  induction ss generalizing stream with
  | nil =>
    rcases stream with _ | ⟨i, rest⟩
    · rfl
    · obtain ⟨s, hs, -⟩ := hin i List.mem_cons_self
      exact absurd hs List.not_mem_nil
  | cons s ss ih =>
    have hs := hfits s List.mem_cons_self
    have hss : ∀ t ∈ ss, t.Fits := fun t ht => hfits t (List.mem_cons_of_mem s ht)
    obtain ⟨hsbefore, hssbefore⟩ := List.pairwise_cons.mp hbefore
    have hrest := ih hss hssbefore (h.filter _) (within_rest hs h hin)
    have hsame : ss.flatMap (fun t => (stream.filter (!s.contains ·.address)).filter
          (t.contains ·.address))
        = ss.flatMap (fun t => stream.filter (t.contains ·.address)) :=
      List.flatMap_congr fun t ht => filter_filter_of_before hs (hss t ht) (hsbefore t ht)
    rw [List.flatMap_cons, ← hsame, hrest,
      filter_contains_append hs h (start_le_of_within hbefore hin)]

end Instruction

/-! ## Items without a gap -/

namespace Item

/-- Items of at least one byte each, one behind the other from one address to another. -/
def Tiles : Nat → List Item → Nat → Prop
  | a, [], b => a = b
  | a, i :: rest, b => i.address.toNat = a ∧ a < i.stop.toNat ∧ Tiles i.stop.toNat rest b

theorem Tiles.append {a b c : Nat} {items items' : List Item} (h : Tiles a items b)
    (h' : Tiles b items' c) : Tiles a (items ++ items') c := by
  induction items generalizing a with
  | nil =>
    obtain rfl : a = b := h
    exact h'
  | cons i items ih => exact ⟨h.1, h.2.1, ih h.2.2⟩

theorem tiles_gapBetween (s : Section) {a b : UInt64} (h : a.toNat ≤ b.toNat) :
    Tiles a.toNat (gapBetween s a b) b.toNat := by
  unfold gapBetween
  split
  · rename_i hlt
    exact ⟨rfl, UInt64.lt_iff_toNat_lt.mp hlt, rfl⟩
  · rename_i hge
    have hle := UInt64.le_iff_toNat_le.mp (UInt64.not_lt.mp hge)
    exact Nat.le_antisymm h hle

/-- The instruction or invalid entry of an item. -/
def instruction? : Item → Option Instruction
  | entry i _ => some i
  | opening _ | closing _ | gap .. => none

theorem filterMap_gapBetween (s : Section) (a b : UInt64) :
    (gapBetween s a b).filterMap instruction? = [] := by
  unfold gapBetween
  split <;> rfl

/-- A gap of a section, or an entry with the label that its address has. -/
def IsContentOf (labelOf : UInt64 → Option Text) (s : Section) (item : Item) : Prop :=
  (∃ a b, item = gap s a b) ∨ ∃ i, item = entry i (labelOf i.address)

theorem isContentOf_of_mem_gapBetween {labelOf : UInt64 → Option Text} {s : Section}
    {a b : UInt64} {item : Item} (h : item ∈ gapBetween s a b) : item.IsContentOf labelOf s := by
  unfold gapBetween at h
  split at h
  · exact Or.inl ⟨a, b, List.mem_singleton.mp h⟩
  · exact absurd h List.not_mem_nil

variable {labelOf : UInt64 → Option Text} {s : Section} {entries rest : List Instruction}

/-- The items of a section stop at the first entry behind it. -/
theorem contents_append (hentries : ∀ i ∈ entries, i.address < s.stop)
    (hrest : ∀ i ∈ rest, ¬ i.address < s.stop) (a : UInt64) :
    contents labelOf s a (entries ++ rest) = ((contents labelOf s a entries).1, rest) := by
  induction entries generalizing a with
  | nil =>
    rcases rest with _ | ⟨i, rest⟩
    · rfl
    · simp only [List.nil_append, contents, if_neg (hrest i List.mem_cons_self)]
  | cons i entries ih =>
    have hi := hentries i List.mem_cons_self
    have hstep := ih fun j hj => hentries j (List.mem_cons_of_mem i hj)
    simp only [List.cons_append, contents, if_pos hi, hstep]

/-- **Entries of a section and the gaps around them tile what is left of it.** -/
theorem tiles_contents (hs : s.Fits) (h : Instruction.Apart entries)
    (hwithin : ∀ i ∈ entries, i.Within s) {a : UInt64}
    (ha : a.toNat ≤ s.start.toNat + s.size.toNat)
    (hbehind : ∀ i ∈ entries, a.toNat ≤ i.address.toNat) :
    Tiles a.toNat (contents labelOf s a entries).1 (s.start.toNat + s.size.toNat)
      ∧ (contents labelOf s a entries).1.filterMap instruction? = entries
      ∧ ∀ item ∈ (contents labelOf s a entries).1, item.IsContentOf labelOf s := by
  induction entries generalizing a with
  | nil =>
    rw [← hs.stop_toNat] at ha ⊢
    exact ⟨tiles_gapBetween s ha, filterMap_gapBetween s a s.stop,
      fun item hitem => isContentOf_of_mem_gapBetween hitem⟩
  | cons i entries ih =>
    have hplaced := h.placed i List.mem_cons_self
    have hpos := hplaced.address_lt
    have hstop := hplaced.stop_toNat
    have hai := hbehind i List.mem_cons_self
    have hreach := (hwithin i List.mem_cons_self).reach_le
    obtain ⟨hnext, hapart⟩ := List.pairwise_cons.mp h.apart
    have hlt : i.address < s.stop := by
      rw [UInt64.lt_iff_toNat_lt, hs.stop_toNat]
      omega
    have hmax : max a i.stop = i.stop := by
      have hle : a ≤ i.stop := UInt64.le_iff_toNat_le.mpr (by omega)
      exact if_pos hle
    obtain ⟨htiles, hentries, hkinds⟩ := ih
      ⟨fun j hj => h.placed j (List.mem_cons_of_mem i hj), hapart⟩
      (fun j hj => hwithin j (List.mem_cons_of_mem i hj)) (a := i.stop) (by omega)
      (fun j hj => by rw [hstop]; exact hnext j hj)
    simp only [contents, if_pos hlt, hmax]
    refine ⟨(tiles_gapBetween s hai).append ⟨rfl, ?_, htiles⟩, ?_, fun item hitem => ?_⟩
    · show i.address.toNat < i.stop.toNat
      omega
    · rw [List.filterMap_append, filterMap_gapBetween, List.nil_append]
      simp only [List.filterMap_cons, instruction?, hentries]
    · rcases List.mem_append.mp hitem with hgap | hitem
      · exact isContentOf_of_mem_gapBetween hgap
      · rcases List.mem_cons.mp hitem with rfl | hitem
        · exact Or.inr ⟨i, rfl⟩
        · exact hkinds item hitem

/-- The items between the marks of a section: those of the entries that it holds. -/
def contentsOf (labelOf : UInt64 → Option Text) (stream : List Instruction) (s : Section) :
    List Item :=
  (contents labelOf s s.start (stream.filter (s.contains ·.address))).1

/-- **The items of a section tile it**, and their entries are all that it holds. -/
theorem tiles_contentsOf {ss : List Section} {stream : List Instruction}
    (hfits : ∀ s ∈ ss, s.Fits) (hbefore : ss.Pairwise Section.Before)
    (h : Instruction.Apart stream) (hin : ∀ i ∈ stream, ∃ s ∈ ss, i.Within s) (hs : s ∈ ss) :
    Tiles s.start.toNat (contentsOf labelOf stream s) (s.start.toNat + s.size.toNat)
      ∧ (contentsOf labelOf stream s).filterMap instruction?
        = stream.filter (s.contains ·.address)
      ∧ ∀ item ∈ contentsOf labelOf stream s, item.IsContentOf labelOf s := by
  refine tiles_contents (hfits s hs) (h.filter _) (fun i hi => ?_) (Nat.le_add_right _ _)
    (fun i hi => ?_)
  · -- the section that the entry lies in is this one, since both hold its address
    obtain ⟨hmem, hsi⟩ := List.mem_filter.mp hi
    obtain ⟨t, ht, hit⟩ := hin i hmem
    have hti := Instruction.contains_of_within (hfits t ht) (h.placed i hmem) hit
    exact Instruction.eq_of_contains hfits hbefore hs ht hsi hti ▸ hit
  · exact ((hfits s hs).contains_iff.mp (List.mem_filter.mp hi).2).1

/-- **Each section takes from the shared stream what it holds.** -/
theorem ofSections_eq_flatMap {ss : List Section} {stream : List Instruction}
    (hfits : ∀ s ∈ ss, s.Fits) (hbefore : ss.Pairwise Section.Before)
    (h : Instruction.Apart stream) (hin : ∀ i ∈ stream, ∃ s ∈ ss, i.Within s) :
    ofSections labelOf ss stream = ss.flatMap fun s =>
      opening s :: contentsOf labelOf stream s ++ [closing s] := by
  induction ss generalizing stream with
  | nil => rfl
  | cons s ss ih =>
    have hs := hfits s List.mem_cons_self
    have hss : ∀ t ∈ ss, t.Fits := fun t ht => hfits t (List.mem_cons_of_mem s ht)
    obtain ⟨hsbefore, hssbefore⟩ := List.pairwise_cons.mp hbefore
    have hstart := Instruction.start_le_of_within hbefore hin
    -- nothing lies before the section any more
    have hdrop : stream.dropWhile (·.address < s.start) = stream := by
      rcases stream with _ | ⟨i, rest⟩
      · rfl
      · have hi : ¬ i.address < s.start := fun hlt =>
          Nat.not_le_of_lt (UInt64.lt_iff_toNat_lt.mp hlt) (hstart i List.mem_cons_self)
        simp [hi]
    have hfront : ∀ i ∈ stream.filter (s.contains ·.address), i.address < s.stop := by
      intro i hi
      rw [UInt64.lt_iff_toNat_lt, hs.stop_toNat]
      exact (hs.contains_iff.mp (List.mem_filter.mp hi).2).2
    have hback : ∀ i ∈ stream.filter (!s.contains ·.address), ¬ i.address < s.stop := by
      intro i hi hlt
      obtain ⟨hmem, hnot⟩ := List.mem_filter.mp hi
      rw [UInt64.lt_iff_toNat_lt, hs.stop_toNat] at hlt
      have hcontains := hs.contains_iff.mpr ⟨hstart i hmem, hlt⟩
      simp [hcontains] at hnot
    have hcontents : contents labelOf s s.start stream
        = (contentsOf labelOf stream s, stream.filter (!s.contains ·.address)) := by
      conv => lhs; rw [← Instruction.filter_contains_append hs h hstart]
      exact contents_append hfront hback s.start
    have hsame : ss.flatMap (fun t => opening t
          :: contentsOf labelOf (stream.filter (!s.contains ·.address)) t ++ [closing t])
        = ss.flatMap fun t => opening t :: contentsOf labelOf stream t ++ [closing t] := by
      refine List.flatMap_congr fun t ht => ?_
      simp only [contentsOf, Instruction.filter_filter_of_before hs (hss t ht) (hsbefore t ht)]
    simp only [ofSections, hdrop, hcontents, List.flatMap_cons, List.append_assoc,
      List.singleton_append]
    rw [ih hss hssbefore (h.filter _) (Instruction.within_rest hs h hin), hsame]

theorem Tiles.address_lt_stop {a b : Nat} {items : List Item} (h : Tiles a items b) :
    ∀ item ∈ items, item.address.toNat < item.stop.toNat := by
  induction items generalizing a with
  | nil => exact fun item hitem => absurd hitem List.not_mem_nil
  | cons i items ih =>
    intro item hitem
    rcases List.mem_cons.mp hitem with rfl | hitem
    · rw [h.1]
      exact h.2.1
    · exact ih h.2.2 item hitem

/-! ## Kinds and addresses of rows -/

/-- Where the rows of a gap start: at its own start, and at every multiple of eight in it. -/
def gapStarts (start stop : Nat) : List Nat :=
  (List.range ((stop - 1) / 8 - start / 8 + 1)).map fun k => max start (8 * (start / 8 + k))

/-- The kinds and the addresses of the rows of an item. -/
def outline : Item → List (RowKind × Nat)
  | opening s => [(.sectionMark, s.start.toNat)]
  | closing s => [(.sectionMark, s.stop.toNat)]
  | entry i label => (if label.isSome then [(.label, i.address.toNat)] else [])
      ++ [(if i.isInvalid then .error else .instruction, i.address.toNat)]
  | gap _ start stop => (gapStarts start.toNat stop.toNat).map (.bytes, ·)

/-- A gap has a row for its first line, for its last one and for those in between. -/
theorem rows_gap {s : Section} {start stop : UInt64} (h : start.toNat < stop.toNat) :
    (gap s start stop).rows = (stop.toNat - 1) / 8 - start.toNat / 8 + 1 := by
  have hpred : (stop - 1).toNat = stop.toNat - 1 := by
    rw [UInt64.toNat_sub_of_le _ _ (UInt64.le_iff_toNat_le.mpr (by simp; omega))]
    rfl
  simp only [rows, lineOf, gapRowBytes, hpred]

/-- The outline of a section is that of its contents between two marks. -/
theorem flatMap_outline_section {s : Section} (hs : s.Fits) (items : List Item) :
    (opening s :: items ++ [closing s]).flatMap outline
      = (.sectionMark, s.start.toNat) :: items.flatMap outline
        ++ [(.sectionMark, s.start.toNat + s.size.toNat)] := by
  simp only [List.cons_append, List.flatMap_cons, List.flatMap_append, List.flatMap_nil,
    List.append_nil, outline, List.nil_append, hs.stop_toNat]

end Item

namespace Listing

/-- A row of a gap starts with the gap or with its line. -/
theorem gapRow_address_toNat (l : Listing) (s : Section) {start stop : UInt64} {sub : Nat}
    (index : Nat) (h : start.toNat < stop.toNat)
    (hsub : sub < (stop.toNat - 1) / 8 - start.toNat / 8 + 1) :
    (l.gapRow s start stop sub index).address.toNat
      = max start.toNat (8 * (start.toNat / 8 + sub)) := by
  have hstop := stop.toNat_lt
  -- the line starts before the gap stops, so its address does not wrap
  have hline : (UInt64.ofNat (Item.lineOf start + sub) * UInt64.ofNat gapRowBytes).toNat
      = 8 * (start.toNat / 8 + sub) := by
    simp only [UInt64.toNat_mul, UInt64.toNat_ofNat', Item.lineOf, gapRowBytes]
    omega
  have hmax : ∀ a b : UInt64, (max a b).toNat = max a.toNat b.toNat := by
    intro a b
    show (if a ≤ b then b else a).toNat = max a.toNat b.toNat
    simp only [UInt64.le_iff_toNat_le]
    split <;> omega
  show (max start (UInt64.ofNat (Item.lineOf start + sub) * UInt64.ofNat gapRowBytes)).toNat = _
  rw [hmax, hline]

/-- The rows of an item have the kinds and addresses of its outline. -/
theorem outline_eq {l : Listing} {m : Machine} (hm : l.machine = some m) (index : Nat)
    {item : Item} (hitem : item.isContent = true → item.address.toNat < item.stop.toNat) :
    ((List.range item.rows).map fun sub => l.itemRow item sub (index + sub)).map
      (fun r => (r.kind, r.address.toNat)) = item.outline := by
  cases item with
  | opening s => rfl
  | closing s => rfl
  | entry i label =>
    cases label with
    | none => simp [Item.rows, Item.outline, itemRow, hm, entryRow]
    | some t =>
      simp [Item.rows, Item.outline, itemRow, hm, entryRow, labelRow, List.range_succ]
  | gap s start stop =>
    have hlt : start.toNat < stop.toNat := hitem rfl
    simp only [Item.outline, Item.gapStarts, List.map_map, Item.rows_gap hlt]
    refine List.map_congr_left fun sub hsub => ?_
    have hsub := List.mem_range.mp hsub
    exact congrArg (RowKind.bytes, ·) (gapRow_address_toNat l s (index + sub) hlt hsub)

theorem map_rowsFrom {l : Listing} {m : Machine} (hm : l.machine = some m) (index : Nat)
    {items : List Item}
    (hitems : ∀ item ∈ items, item.isContent = true → item.address.toNat < item.stop.toNat) :
    (l.rowsFrom index items).map (fun r => (r.kind, r.address.toNat))
      = items.flatMap Item.outline := by
  induction items generalizing index with
  | nil => rfl
  | cons item items ih =>
    rw [rowsFrom, List.map_append, outline_eq hm index (hitems item List.mem_cons_self),
      ih _ fun j hj => hitems j (List.mem_cons_of_mem item hj), List.flatMap_cons]

end Listing

/-! ## What a listing shows -/

namespace Analysis

variable {c : Conditions} {config : Config} {machine : Option Machine} {order : ByteOrder}
variable {entry : UInt64} {sections : List Section} {symbols : List Symbol} {an : Analysis}

/-- The stream of an analysis lies apart, each entry in one executable section. -/
theorem stream_within_code
    (h : run c config (Image.build machine order entry sections symbols) = .ok an) :
    Instruction.Apart an.stream.toList
      ∧ ∀ i ∈ an.stream.toList, ∃ s ∈ (Image.build machine order entry sections
        symbols).sections.toList.filter (·.executable), i.Within s := by
  have hclip := Image.clipped_build machine order entry sections symbols
  obtain ⟨m, p, -, hp, rfl⟩ := reached_of_run h
  have hsound := Progress.sound_of_reached hclip hp
  refine ⟨⟨fun i hi => hsound.tidy.placed i (Array.mem_toList_iff.mp hi), hsound.tidy.apart⟩, ?_⟩
  intro i hi
  obtain ⟨s, hs, hexec, hstart, hreach, -⟩ :=
    ((hsound.wellPlaced hclip).backed i (Array.mem_toList_iff.mp hi)).inside
  have hbytes := hclip s hs
  refine ⟨s, List.mem_filter.mpr ⟨Array.mem_toList_iff.mpr hs, hexec⟩, hstart, ?_⟩
  show i.address.toNat + i.length ≤ s.start.toNat + s.size.toNat
  omega

/--
**The listing of an analysis tiles the code.**

Take an image that is built, all of whose sections end below `2 ^ 64`. The rows of the listing of
its analysis are, for each executable section in the order of their addresses, the mark of its
start, rows of its contents, and the mark of its end. The contents are entries, each with the label
that its address has, and gaps: they lie one behind the other, without an overlap, from the start of
the section to its end. The entries of all contents are those of the stream, each once and in order.
An entry makes one row, and one of the same address before it exactly if it has a label.
-/
theorem listing_tiles_code
    (h : run c config (Image.build machine order entry sections symbols) = .ok an)
    (hends : ∀ s ∈ (Image.build machine order entry sections symbols).sections,
      s.start.toNat + s.size.toNat < 2 ^ 64) (records : Debug.Index) :
    let l := Listing.build an records
    let code := (Image.build machine order entry sections symbols).sections.toList.filter
      (·.executable)
    code.Pairwise (fun s t => s.start.toNat + s.size.toNat ≤ t.start.toNat)
      ∧ ∃ contents : Section → List Item,
        (List.range l.size).map l.row
            = l.rowsFrom 0 (code.flatMap fun s => .opening s :: contents s ++ [.closing s])
          ∧ (List.range l.size).map (fun k => ((l.row k).kind, (l.row k).address.toNat))
            = code.flatMap (fun s => (.sectionMark, s.start.toNat)
              :: (contents s).flatMap Item.outline
              ++ [(.sectionMark, s.start.toNat + s.size.toNat)])
          ∧ (code.flatMap contents).filterMap Item.instruction? = an.stream.toList
          ∧ ∀ s ∈ code, Item.Tiles s.start.toNat (contents s) (s.start.toNat + s.size.toNat)
            ∧ ∀ item ∈ contents s, item.IsContentOf records.symbolAt s := by
  intro l code
  have himage : an.image = Image.build machine order entry sections symbols := by
    obtain ⟨m, p, -, -, rfl⟩ := reached_of_run h
    rfl
  have hfits : ∀ s ∈ code, s.Fits := fun s hs =>
    hends s (Array.mem_toList_iff.mp (List.mem_of_mem_filter hs))
  have hbefore : code.Pairwise Section.Before := (Image.pairwise_before hends).filter _
  obtain ⟨hapart, hwithin⟩ := stream_within_code h
  have hitems : l.items.toList = code.flatMap fun s =>
      .opening s :: Item.contentsOf records.symbolAt an.stream.toList s ++ [.closing s] := by
    have hsections : l.items.toList = Item.ofSections records.symbolAt code an.stream.toList := by
      simp only [l, code, Listing.build, himage]
    rw [hsections, Item.ofSections_eq_flatMap hfits hbefore hapart hwithin]
  -- what each section holds
  have hcontents := fun s (hs : s ∈ code) =>
    @Item.tiles_contentsOf records.symbolAt s code an.stream.toList hfits hbefore hapart hwithin hs
  have hrows := Listing.map_row_range (Listing.indexed_build an records)
  have hnonempty : ∀ item ∈ l.items.toList,
      item.isContent = true → item.address.toNat < item.stop.toNat := by
    intro item hitem hcontent
    rw [hitems] at hitem
    obtain ⟨s, hs, hitem⟩ := List.mem_flatMap.mp hitem
    rcases List.mem_append.mp hitem with hitem | hitem
    · rcases List.mem_cons.mp hitem with rfl | hitem
      · exact absurd hcontent (by simp [Item.isContent])
      · exact (hcontents s hs).1.address_lt_stop item hitem
    · obtain rfl := List.mem_singleton.mp hitem
      exact absurd hcontent (by simp [Item.isContent])
  refine ⟨hbefore, Item.contentsOf records.symbolAt an.stream.toList, ?_, ?_, ?_, ?_⟩
  · rw [hrows, ← hitems]
  · calc (List.range l.size).map (fun k => ((l.row k).kind, (l.row k).address.toNat))
        = (l.rowsFrom 0 l.items.toList).map (fun r => (r.kind, r.address.toNat)) := by
          rw [← hrows, List.map_map]
          rfl
      _ = l.items.toList.flatMap Item.outline := Listing.map_rowsFrom rfl 0 hnonempty
      _ = _ := by
          rw [hitems, List.flatMap_assoc]
          exact List.flatMap_congr fun s hs => Item.flatMap_outline_section (hfits s hs) _
  · rw [List.filterMap_flatMap]
    calc code.flatMap (fun s => (Item.contentsOf records.symbolAt an.stream.toList s).filterMap
          Item.instruction?)
        = code.flatMap (fun s => an.stream.toList.filter (s.contains ·.address)) :=
          List.flatMap_congr fun s hs => (hcontents s hs).2.1
      _ = an.stream.toList :=
          Instruction.flatMap_filter_contains hfits hbefore hapart hwithin
  · exact fun s hs => ⟨(hcontents s hs).1, (hcontents s hs).2.2⟩

/-- A section with an invalid entry, an instruction and a gap, where both entries have labels. -/
theorem listing_tiles_code_overlap : ∃ an, run {} {} overlapImage = .ok an
    ∧ (∀ s ∈ overlapImage.sections, s.start.toNat + s.size.toNat < 2 ^ 64)
    ∧ let l := Listing.build an { image := some overlapImage }
      (List.range l.size).map (fun k => ((l.row k).kind, (l.row k).address.toNat))
          = [(.sectionMark, 0x1000), (.label, 0x1000), (.error, 0x1000), (.label, 0x1001),
            (.instruction, 0x1001), (.bytes, 0x1002), (.sectionMark, 0x1006)]
        ∧ ∃ contents : Section → List Item, ∀ s ∈ overlapImage.sections, s.executable = true →
          Item.Tiles s.start.toNat (contents s) (s.start.toNat + s.size.toNat) := by
  obtain ⟨an, han, hrows⟩ : ∃ an, run {} {} overlapImage = .ok an
      ∧ (let l := Listing.build an { image := some overlapImage }
        (List.range l.size).map (fun k => ((l.row k).kind, (l.row k).address.toNat))
          == [(.sectionMark, 0x1000), (.label, 0x1000), (.error, 0x1000), (.label, 0x1001),
            (.instruction, 0x1001), (.bytes, 0x1002), (.sectionMark, 0x1006)]) = true :=
    exists_ok_of_any (by decide +kernel)
  have hends : ∀ s ∈ overlapImage.sections, s.start.toNat + s.size.toNat < 2 ^ 64 := by
    decide +kernel
  obtain ⟨-, contents, -, -, -, htiles⟩ :=
    listing_tiles_code han hends { image := some overlapImage }
  refine ⟨an, han, hends, eq_of_beq hrows, contents, fun s hs hexec => ?_⟩
  exact (htiles s (List.mem_filter.mpr ⟨Array.mem_toList_iff.mpr hs, hexec⟩)).1

end Analysis

end Disassembler
