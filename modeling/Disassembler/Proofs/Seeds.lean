import Disassembler.Merge
import Disassembler.Proofs.Sections
import Mathlib.Data.List.Destutter

/-!
# Seeds in order

Seeds are swept by origin, and within one origin by address. The seeds of a later round are brought
into this order, and those that an image names come in it by themselves, since its tables of
symbols and of sections ascend. Both tables of symbols and lists of seeds keep the first of each
address: in a list by address, that leaves addresses which ascend strictly, so no address is there
twice.
-/

namespace Disassembler

/-! ## One of each address -/

/-- In a list by address, the first ones of all runs ascend strictly. -/
theorem pairwise_lt_destutter {α : Type} {key : α → UInt64} {l : List α}
    (h : l.Pairwise fun x y => key x ≤ key y) :
    (l.destutter fun x y => key x ≠ key y).Pairwise fun x y => key x < key y := by
  have hle := List.pairwise_iff_getElem.mp
    (h.sublist (List.destutter_sublist (fun x y => key x ≠ key y) l))
  have hne := List.isChain_iff_getElem.mp (List.isChain_destutter (fun x y => key x ≠ key y) l)
  have : Trans (fun x y : α => key x < key y) (fun x y => key x < key y)
      (fun x y => key x < key y) := ⟨UInt64.lt_trans⟩
  -- neighbours ascend and differ, and the rest follows from neighbour to neighbour
  refine List.isChain_iff_pairwise.mp (List.isChain_iff_getElem.mpr fun k hk => ?_)
  exact UInt64.lt_of_le_of_ne (hle k (k + 1) _ hk (Nat.lt_succ_self k)) (hne k hk)

theorem nodup_map_of_pairwise_lt {α : Type} {key : α → UInt64} {l : List α}
    (h : l.Pairwise fun x y => key x < key y) : (l.map key).Nodup :=
  List.pairwise_map.mpr (h.imp fun hlt => UInt64.ne_of_lt hlt)

/-! ## Tables of symbols -/

namespace Image

/-- The order of the symbol table, in numbers. -/
theorem precedes_iff {s t : Symbol} : s.precedes t = true ↔
    s.address.toNat < t.address.toNat
      ∨ s.address.toNat = t.address.toNat ∧ s.rank ≤ t.rank := by
  unfold Symbol.precedes
  split
  · rename_i heq
    rw [decide_eq_true_iff, heq]
    omega
  · rename_i hne
    rw [decide_eq_true_iff, UInt64.lt_iff_toNat_lt]
    rw [← UInt64.toNat_inj] at hne
    omega

theorem precedes_trans (s t u : Symbol) (hst : s.precedes t = true) (htu : t.precedes u = true) :
    s.precedes u = true := by
  rw [precedes_iff] at hst htu ⊢
  omega

theorem precedes_total (s t : Symbol) : (s.precedes t || t.precedes s) = true := by
  rw [Bool.or_eq_true, precedes_iff, precedes_iff]
  omega

theorem pairwise_mergeSort_precedes (symbols : List Symbol) :
    (symbols.mergeSort Symbol.precedes).Pairwise fun s t => s.address ≤ t.address := by
  refine (List.pairwise_mergeSort precedes_trans precedes_total symbols).imp fun {s t} hst => ?_
  rw [precedes_iff] at hst
  rw [UInt64.le_iff_toNat_le]
  omega

theorem firstOfEach_eq_destutter (l : List Symbol) :
    firstOfEach l = l.destutter fun s t => s.address ≠ t.address := by
  fun_induction firstOfEach l with
  | case1 => rfl
  | case2 s => rfl
  | case3 s t rest heq ih =>
    rw [ih, List.destutter_cons', List.destutter_cons', List.destutter'_cons_neg _ (by simpa)]
  | case4 s t rest hne ih =>
    rw [ih, List.destutter_cons', List.destutter_cons', List.destutter'_cons_pos _ hne]

theorem firstOfEach_sublist (l : List Symbol) : (firstOfEach l).Sublist l := by
  rw [firstOfEach_eq_destutter]
  exact List.destutter_sublist _ l

/-- A symbol that is put in place of others keeps the order. -/
theorem pairwise_lt_withSymbol {e : Symbol} {l : List Symbol}
    (h : l.Pairwise fun s t => s.address < t.address) :
    (withSymbol e l).Pairwise fun s t => s.address < t.address := by
  refine List.pairwise_append.mpr ⟨h.filter _, List.pairwise_cons.mpr ⟨fun t ht => ?_, h.filter _⟩,
    fun s hs t ht => ?_⟩
  · exact of_decide_eq_true (List.mem_filter.mp ht).2
  · have hse := of_decide_eq_true (List.mem_filter.mp hs).2
    rcases List.mem_cons.mp ht with rfl | ht
    · exact hse
    · exact UInt64.lt_trans hse (of_decide_eq_true (List.mem_filter.mp ht).2)

variable {machine : Option Machine} {order : ByteOrder} {entry : UInt64}
variable {sections : List Section} {symbols : List Symbol}

/-- **The symbols of an image ascend strictly by address.** -/
theorem pairwise_lt_symbols : (build machine order entry sections symbols).symbols.toList.Pairwise
    fun s t => s.address < t.address := by
  have htable : (symbolTable symbols).Pairwise fun s t => s.address < t.address := by
    rw [symbolTable, firstOfEach_eq_destutter]
    exact pairwise_lt_destutter (pairwise_mergeSort_precedes symbols)
  unfold build
  dsimp only
  split
  · exact pairwise_lt_withSymbol htable
  · exact htable

end Image

/-! ## The order of sweeping -/

namespace Seed

/-- The order of sweeping: by origin, and within one origin by address. -/
theorem precedes_iff {s t : Seed} : s.precedes t = true ↔
    s.origin.rank < t.origin.rank ∨ s.origin = t.origin ∧ s.address ≤ t.address := by
  have hrank : s.origin.rank = t.origin.rank ↔ s.origin = t.origin := by
    cases s.origin <;> cases t.origin <;> decide
  unfold precedes
  split
  · rename_i heq
    rw [decide_eq_true_iff, heq]
    simp
  · rename_i hne
    rw [decide_eq_true_iff]
    have hne' := mt hrank.mp hne
    simp only [hne, false_and, or_false]
    omega

theorem precedes_trans (s t u : Seed) (hst : s.precedes t = true) (htu : t.precedes u = true) :
    s.precedes u = true := by
  rw [precedes_iff] at hst htu ⊢
  rcases hst with hst | ⟨hst, hle⟩
  · -- a seed of a stronger origin comes before all that follow the other one
    rcases htu with htu | ⟨htu, -⟩
    · exact Or.inl (Nat.lt_trans hst htu)
    · exact Or.inl (htu ▸ hst)
  · rcases htu with htu | ⟨htu, hle'⟩
    · exact Or.inl (hst ▸ htu)
    · exact Or.inr ⟨hst.trans htu, UInt64.le_trans hle hle'⟩

theorem precedes_total (s t : Seed) : (s.precedes t || t.precedes s) = true := by
  rw [Bool.or_eq_true, precedes_iff, precedes_iff]
  have hrank : s.origin.rank = t.origin.rank → s.origin = t.origin := by
    cases s.origin <;> cases t.origin <;> decide
  rcases Nat.lt_trichotomy s.origin.rank t.origin.rank with hlt | heq | hgt
  · exact Or.inl (Or.inl hlt)
  · rcases UInt64.le_total s.address t.address with hle | hle
    · exact Or.inl (Or.inr ⟨hrank heq, hle⟩)
    · exact Or.inr (Or.inr ⟨(hrank heq).symm, hle⟩)
  · exact Or.inr (Or.inl hgt)

/-! ## Arranging -/

theorem precedesByAddress_iff {s t : Seed} : s.precedesByAddress t = true ↔
    s.address.toNat < t.address.toNat
      ∨ s.address.toNat = t.address.toNat ∧ s.origin.rank ≤ t.origin.rank := by
  unfold precedesByAddress
  split
  · rename_i heq
    rw [decide_eq_true_iff, heq]
    omega
  · rename_i hne
    rw [decide_eq_true_iff, UInt64.le_iff_toNat_le]
    rw [← UInt64.toNat_inj] at hne
    omega

theorem pairwise_mergeSort_precedesByAddress (seeds : List Seed) :
    (seeds.mergeSort precedesByAddress).Pairwise fun s t => s.address ≤ t.address := by
  refine (List.pairwise_mergeSort (fun s t u hst htu => ?_) (fun s t => ?_) seeds).imp
    fun {s t} hst => ?_
  · rw [precedesByAddress_iff] at hst htu ⊢
    omega
  · rw [Bool.or_eq_true, precedesByAddress_iff, precedesByAddress_iff]
    omega
  · rw [precedesByAddress_iff] at hst
    rw [UInt64.le_iff_toNat_le]
    omega

theorem firstOfEach_eq_destutter (l : List Seed) :
    firstOfEach l = l.destutter fun s t => s.address ≠ t.address := by
  fun_induction firstOfEach l with
  | case1 => rfl
  | case2 s => rfl
  | case3 s t rest heq ih =>
    rw [ih, List.destutter_cons', List.destutter_cons', List.destutter'_cons_neg _ (by simpa)]
  | case4 s t rest hne ih =>
    rw [ih, List.destutter_cons', List.destutter_cons', List.destutter'_cons_pos _ hne]

/-- One seed of each run of one address is kept. -/
theorem exists_mem_firstOfEach {seeds : List Seed} {s : Seed} (h : s ∈ seeds) :
    ∃ t ∈ firstOfEach seeds, t.address = s.address := by
  fun_induction firstOfEach seeds generalizing s with
  | case1 => exact absurd h List.not_mem_nil
  | case2 t => exact ⟨t, List.mem_singleton_self t, by rw [List.mem_singleton.mp h]⟩
  | case3 t u rest heq ih =>
    rcases List.mem_cons.mp h with rfl | h
    · exact ih List.mem_cons_self
    · rcases List.mem_cons.mp h with rfl | h
      · obtain ⟨v, hv, ha⟩ := ih List.mem_cons_self
        exact ⟨v, hv, ha.trans heq⟩
      · exact ih (List.mem_cons_of_mem t h)
  | case4 t u rest hne ih =>
    rcases List.mem_cons.mp h with rfl | h
    · exact ⟨s, List.mem_cons_self, rfl⟩
    · obtain ⟨v, hv, ha⟩ := ih h
      exact ⟨v, List.mem_cons_of_mem t hv, ha⟩

theorem mem_of_mem_firstOfEach {seeds : List Seed} {s : Seed} (h : s ∈ firstOfEach seeds) :
    s ∈ seeds := by
  rw [firstOfEach_eq_destutter] at h
  exact (List.destutter_sublist _ seeds).mem h

theorem mem_of_mem_arrange {seeds : List Seed} {s : Seed} (h : s ∈ arrange seeds) : s ∈ seeds := by
  have hfirst := mem_of_mem_firstOfEach (List.mem_mergeSort.mp h)
  exact List.mem_mergeSort.mp hfirst

/-- Arranging loses no address. -/
theorem exists_mem_arrange {seeds : List Seed} {s : Seed} (h : s ∈ seeds) :
    ∃ t ∈ arrange seeds, t.address = s.address := by
  obtain ⟨t, ht, ha⟩ := exists_mem_firstOfEach (List.mem_mergeSort.mpr h)
  exact ⟨t, List.mem_mergeSort.mpr ht, ha⟩

/-- **Arranged seeds are in the order of sweeping.** -/
theorem pairwise_precedes_arrange (seeds : List Seed) :
    (arrange seeds).Pairwise fun s t => s.precedes t = true :=
  List.pairwise_mergeSort precedes_trans precedes_total _

/-- **And no address is there twice.** -/
theorem nodup_arrange (seeds : List Seed) : ((arrange seeds).map (·.address)).Nodup := by
  have hfirst : ((firstOfEach (seeds.mergeSort precedesByAddress)).map (·.address)).Nodup := by
    rw [firstOfEach_eq_destutter]
    exact nodup_map_of_pairwise_lt
      (pairwise_lt_destutter (pairwise_mergeSort_precedesByAddress seeds))
  exact ((List.mergeSort_perm _ precedes).map (·.address)).nodup_iff.mpr hfirst

end Seed

/-! ## The seeds that an image names -/

namespace Image

/-- The seed that a symbol names, if it names code. -/
def seedOf? (s : Symbol) : Option Seed :=
  if s.kind = .function ∨ s.kind = .entry then some { address := s.address, origin := .symbol }
  else none

/-- Is a symbol in code, but not at the entry point? -/
def selects (image : Image) (s : Symbol) : Bool :=
  s.address != image.entry && image.inCode s.address

theorem namedSeeds_eq (image : Image) : image.namedSeeds
    = (if image.inCode image.entry then [{ address := image.entry, origin := .entry }] else [])
      ++ (image.symbols.toList.filter image.selects).filterMap seedOf? := by
  rw [namedSeeds, List.filterMap_filter]
  congr 2
  funext s
  by_cases hkind : s.kind = .function ∨ s.kind = .entry
  · simp [hkind, selects, seedOf?]
  · simp [hkind, selects, seedOf?]

variable {image : Image} {s : Seed}

/-- A seed of a symbol lies in code, away from the entry point. -/
theorem of_mem_symbolSeeds (h : s ∈ (image.symbols.toList.filter image.selects).filterMap seedOf?) :
    s.origin = .symbol ∧ s.address ≠ image.entry ∧ image.inCode s.address = true := by
  obtain ⟨t, ht, hs⟩ := List.mem_filterMap.mp h
  have hselected := (List.mem_filter.mp ht).2
  rw [selects, Bool.and_eq_true, bne_iff_ne] at hselected
  unfold seedOf? at hs
  split at hs
  · obtain rfl := Option.some.inj hs
    exact ⟨rfl, hselected⟩
  · exact absurd hs (by simp)

variable {machine : Option Machine} {order : ByteOrder} {entry : UInt64}
variable {sections : List Section} {symbols : List Symbol}

theorem pairwise_lt_symbolSeeds (p : Symbol → Bool) :
    (((build machine order entry sections symbols).symbols.toList.filter p).filterMap
      seedOf?).Pairwise fun s t => s.address < t.address := by
  have haddress : ∀ s t, seedOf? s = some t → t.address = s.address := by
    intro s t h
    unfold seedOf? at h
    split at h
    · obtain rfl := Option.some.inj h
      rfl
    · exact absurd h (by simp)
  refine List.pairwise_filterMap.mpr ((pairwise_lt_symbols.filter p).imp ?_)
  intro s t hst u hu v hv
  rw [haddress s u hu, haddress t v hv]
  exact hst

/-- **The first seeds of an image are in the order of sweeping.** -/
theorem pairwise_precedes_initialSeeds :
    (build machine order entry sections symbols).initialSeeds.Pairwise
      fun s t => s.precedes t = true := by
  unfold initialSeeds
  split
  · -- the starts of sections, all of one origin
    refine List.pairwise_map.mpr ((pairwise_start_sections.filter _).imp fun {s t} hst => ?_)
    exact Seed.precedes_iff.mpr (Or.inr ⟨rfl, hst⟩)
  · rw [namedSeeds_eq]
    refine List.pairwise_append.mpr ⟨?_, ?_, fun s hs t ht => ?_⟩
    · split
      · exact List.pairwise_singleton _ _
      · exact List.Pairwise.nil
    · refine (pairwise_lt_symbolSeeds _).imp_of_mem fun {s t} hs ht hst => ?_
      have horigin := (of_mem_symbolSeeds hs).1.trans (of_mem_symbolSeeds ht).1.symm
      exact Seed.precedes_iff.mpr (Or.inr ⟨horigin, UInt64.le_of_lt hst⟩)
    · -- the entry point comes before all symbols
      split at hs
      · obtain rfl := List.mem_singleton.mp hs
        have horigin := (of_mem_symbolSeeds ht).1
        refine Seed.precedes_iff.mpr (Or.inl ?_)
        rw [horigin]
        exact Nat.zero_lt_one
      · exact absurd hs List.not_mem_nil

/-- In sections that end below `2 ^ 64`, every first seed lies in code. -/
theorem inCode_of_mem_initialSeeds
    (hfits : ∀ s ∈ (build machine order entry sections symbols).sections, s.Fits) {s : Seed}
    (h : s ∈ (build machine order entry sections symbols).initialSeeds) :
    (build machine order entry sections symbols).inCode s.address = true := by
  unfold initialSeeds at h
  split at h
  · obtain ⟨t, ht, rfl⟩ := List.mem_map.mp h
    obtain ⟨ht, hexec⟩ := List.mem_filter.mp ht
    have ht := Array.mem_toList_iff.mp ht
    have hpos := size_pos ht
    have hcontains : t.contains t.start = true :=
      (hfits t ht).contains_iff.mpr ⟨Nat.le_refl _, by omega⟩
    exact inCode_iff.mpr
      ⟨t, (sectionFor_eq_some_iff (pairwise_before hfits)).mpr ⟨ht, hcontains⟩, hexec⟩
  · rw [namedSeeds_eq] at h
    rcases List.mem_append.mp h with h | h
    · split at h
      · rename_i hcode
        obtain rfl := List.mem_singleton.mp h
        exact hcode
      · exact absurd h List.not_mem_nil
    · exact (of_mem_symbolSeeds h).2.2

/-- **And no address is there twice.** -/
theorem nodup_initialSeeds
    (hfits : ∀ s ∈ (build machine order entry sections symbols).sections, s.Fits) :
    ((build machine order entry sections symbols).initialSeeds.map (·.address)).Nodup := by
  unfold initialSeeds
  split
  · -- each section starts behind the end of the one before it, and none is empty
    rw [List.map_map]
    refine nodup_map_of_pairwise_lt (((pairwise_before hfits).filter _).imp_of_mem
      fun {s t} hs _ hst => ?_)
    have hpos := size_pos (Array.mem_toList_iff.mp (List.mem_of_mem_filter hs))
    have hst : s.start.toNat + s.size.toNat ≤ t.start.toNat := hst
    exact UInt64.lt_iff_toNat_lt.mpr (by show s.start.toNat < t.start.toNat; omega)
  · rw [namedSeeds_eq, List.map_append]
    refine List.nodup_append.mpr
      ⟨?_, nodup_map_of_pairwise_lt (pairwise_lt_symbolSeeds _), fun a ha b hb => ?_⟩
    · split
      · exact List.pairwise_singleton _ _
      · exact List.Pairwise.nil
    · -- a symbol at the entry point is no seed of its own
      obtain ⟨t, ht, rfl⟩ := List.mem_map.mp hb
      split at ha
      · obtain rfl := List.mem_singleton.mp ha
        exact (of_mem_symbolSeeds ht).2.1.symm
      · exact absurd ha List.not_mem_nil

end Image

end Disassembler
